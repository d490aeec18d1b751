import DesignVars.Classification
import DesignVars.Color.Expression
import DesignVars.Color.Function
import DesignVars.Color.Literal
import DesignVars.Color.Space
import DesignVars.Command.Arguments
import DesignVars.Command.Execution
import DesignVars.Css.Token
import DesignVars.Decimal.Notation
import DesignVars.Decimal.Numeral
import DesignVars.Declaration
import DesignVars.Document
import DesignVars.Entry
import DesignVars.Files
import DesignVars.Json.Basic
import DesignVars.Json.Reader
import DesignVars.Json.Token
import DesignVars.Listing
import DesignVars.Main
import DesignVars.Placement
import DesignVars.Proofs.Alias
import DesignVars.Proofs.Arguments
import DesignVars.Proofs.Attribute
import DesignVars.Proofs.Batch
import DesignVars.Proofs.Classification
import DesignVars.Proofs.Clean
import DesignVars.Proofs.Color.Byte
import DesignVars.Proofs.Color.Evaluation
import DesignVars.Proofs.Color.Finite
import DesignVars.Proofs.Color.Hex
import DesignVars.Proofs.Color.Hue
import DesignVars.Proofs.Color.Zero
import DesignVars.Proofs.Contents
import DesignVars.Proofs.Copies
import DesignVars.Proofs.Css.Block
import DesignVars.Proofs.Css.Call
import DesignVars.Proofs.Css.Component
import DesignVars.Proofs.Css.Token
import DesignVars.Proofs.Cursor.Reader
import DesignVars.Proofs.Cursor.Scan
import DesignVars.Proofs.Cursor.Statement
import DesignVars.Proofs.Declaration
import DesignVars.Proofs.Document
import DesignVars.Proofs.Entry
import DesignVars.Proofs.Execution
import DesignVars.Proofs.Files
import DesignVars.Proofs.Grammar
import DesignVars.Proofs.History
import DesignVars.Proofs.Json.Fields
import DesignVars.Proofs.Json.Reader
import DesignVars.Proofs.Json.Token
import DesignVars.Proofs.Linking
import DesignVars.Proofs.List
import DesignVars.Proofs.Lookup
import DesignVars.Proofs.ModeBlock
import DesignVars.Proofs.Name
import DesignVars.Proofs.Ownership
import DesignVars.Proofs.Path
import DesignVars.Proofs.Permutation
import DesignVars.Proofs.Placement
import DesignVars.Proofs.Provenance
import DesignVars.Proofs.Redeclaration
import DesignVars.Proofs.Reference
import DesignVars.Proofs.Reimport
import DesignVars.Proofs.Rendering
import DesignVars.Proofs.Report
import DesignVars.Proofs.Rereading
import DesignVars.Proofs.Resolution
import DesignVars.Proofs.RoundTrip
import DesignVars.Proofs.Saving
import DesignVars.Proofs.Scanner
import DesignVars.Proofs.Scheme
import DesignVars.Proofs.Scope
import DesignVars.Proofs.Shadowing
import DesignVars.Proofs.Sheet
import DesignVars.Proofs.Store
import DesignVars.Proofs.Table
import DesignVars.Proofs.Text.Bytes
import DesignVars.Report
import DesignVars.Resolution
import DesignVars.Scope
import DesignVars.SortedMap
import DesignVars.Store
import DesignVars.Text.Blank
import DesignVars.Value
import DesignVars.Variable
import DesignVars.Yaml.Node
import DesignVars.Yaml.Scalar
import DesignVars.Yaml.Token
