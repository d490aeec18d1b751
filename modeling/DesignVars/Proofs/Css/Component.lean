import DesignVars.Css.Token
import DesignVars.Proofs.List

/-!
# The tokens of a tree

Reading a tree off again gives the tokens it was made of, and those give the tree.

* `Component.tokens`, `tokensOf`: the tokens of a component and of a list of them;
* `Nesting.tokens_step`, `Nesting.tokens_foldl`: one more token, and all tokens;
* **`tokensOf_ofTokens`**: the tokens of a tree are those it was made of, and closing brackets for
  the blocks that end with the text;
* **`ofTokens_tokensOf`**: and the tree of these tokens is the tree again;
* `isInfix_tokens`: so a block without blocks in it is a stretch of the tokens.
-/

namespace DesignVars.Css

/-! ## Reading a tree off -/

mutual

/-- The tokens of a component, those of a block with both brackets. -/
def Component.tokens : Component → List Token
  | .token t => [t]
  | .block o body => .opening o :: (tokensOf body ++ [.closing o.closing])

def tokensOf : List Component → List Token
  | [] => []
  | c :: cs => c.tokens ++ tokensOf cs

end

theorem tokensOf_append (cs ds : List Component) :
    tokensOf (cs ++ ds) = tokensOf cs ++ tokensOf ds := by
  induction cs with
  | nil => rfl
  | cons c cs ih => rw [List.cons_append, tokensOf, tokensOf, ih, List.append_assoc]

theorem tokensOf_token (ts : List Token) : tokensOf (ts.map .token) = ts := by
  induction ts with
  | nil => rfl
  | cons t ts ih => rw [List.map_cons, tokensOf, ih, Component.tokens]; rfl

theorem tokensOf_concat (cs : List Component) (c : Component) :
    tokensOf (cs ++ [c]) = tokensOf cs ++ c.tokens := by
  rw [tokensOf_append, tokensOf, tokensOf, List.append_nil]

theorem isInfix_tokensOf {c : Component} {cs : List Component} (h : c ∈ cs) :
    c.tokens <:+: tokensOf cs := by
  obtain ⟨before, after, rfl⟩ := List.append_of_mem h
  rw [tokensOf_append, tokensOf]
  exact ⟨tokensOf before, tokensOf after, by rw [List.append_assoc]⟩

/-! ## Reading token by token -/

namespace Nesting

/-- The tokens before the innermost open block. -/
def tokensOfFrames : List (Opening × List Component) → List Token
  | [] => []
  | (o, before) :: fs => tokensOfFrames fs ++ tokensOf before.reverse ++ [.opening o]

/-- The tokens that have been read. -/
protected def tokens (n : Nesting) : List Token :=
  tokensOfFrames n.frames ++ tokensOf n.inner.reverse

theorem tokens_add (n : Nesting) (t : Token) : (n.add (.token t)).tokens = n.tokens ++ [t] := by
  rw [Nesting.tokens, Nesting.tokens, add, List.reverse_cons, tokensOf_concat, Component.tokens,
    List.append_assoc]

/-- **One more token is read.** -/
theorem tokens_step (n : Nesting) (t : Token) : (n.step t).tokens = n.tokens ++ [t] := by
  unfold step
  split
  · rename_i o
    rw [Nesting.tokens, enter, tokensOfFrames, Nesting.tokens, List.reverse_nil, tokensOf,
      List.append_nil]
  · rename_i c
    unfold leave
    split
    · rename_i o before fs hf
      split
      · rename_i hc
        simp only [Nesting.tokens, hf, tokensOfFrames, List.reverse_cons, tokensOf_concat,
          Component.tokens, hc, List.append_assoc, List.cons_append, List.nil_append]
      · exact n.tokens_add _
    · exact n.tokens_add _
  · exact n.tokens_add t

theorem tokens_foldl (n : Nesting) (ts : List Token) :
    (ts.foldl step n).tokens = n.tokens ++ ts := by
  induction ts generalizing n with
  | nil => rw [List.append_nil]; rfl
  | cons t ts ih => rw [List.foldl_cons, ih, tokens_step, List.append_assoc]; rfl

theorem tokens_finish (n : Nesting) :
    tokensOf n.finish = n.tokens ++ n.frames.map fun f => .closing f.1.closing := by
  obtain ⟨inner, frames⟩ := n
  induction frames generalizing inner with
  | nil => rw [List.map_nil, List.append_nil]; rfl
  | cons f fs ih =>
    obtain ⟨o, before⟩ := f
    have hf : finish ⟨inner, (o, before) :: fs⟩ = finish ⟨.block o inner.reverse :: before, fs⟩ :=
      rfl
    rw [hf, ih]
    simp only [Nesting.tokens, tokensOfFrames, List.reverse_cons, tokensOf_concat,
      Component.tokens, List.map_cons, List.append_assoc, List.cons_append, List.nil_append]

end Nesting

/-- **The tokens of a tree are those it was made of**, and closing brackets for the blocks that end
with the text. -/
theorem tokensOf_ofTokens (ts : List Token) :
    ∃ closings : List Closing, tokensOf (ofTokens ts) = ts ++ closings.map .closing := by
  refine ⟨(ts.foldl Nesting.step {}).frames.map fun f => f.1.closing, ?_⟩
  rw [ofTokens, Nesting.tokens_finish, Nesting.tokens_foldl, List.map_map]
  rfl

/-! ## Reading the tokens of a tree -/

mutual

/-- Every bracket is one of a block. -/
def Component.isProper : Component → Bool
  | .token (.opening _) | .token (.closing _) => false
  | .token _ => true
  | .block _ body => areProper body

def areProper : List Component → Bool
  | [] => true
  | c :: cs => c.isProper && areProper cs

end

mutual

theorem Component.foldl_tokens (c : Component) (h : c.isProper = true) (n : Nesting) :
    c.tokens.foldl Nesting.step n = n.add c := by
  cases c with
  | token t =>
    cases t with
    | opening o => cases h
    | closing c => cases h
    | _ => rfl
  | block o body =>
    have hbody := foldl_tokensOf body (by simpa only [Component.isProper] using h) (n.enter o)
    rw [Component.tokens, List.foldl_cons, List.foldl_append]
    change [Token.closing o.closing].foldl Nesting.step
      ((tokensOf body).foldl Nesting.step (n.enter o)) = _
    rw [hbody]
    simp [Nesting.step, Nesting.leave, Nesting.enter, Nesting.add]

theorem foldl_tokensOf (cs : List Component) (h : areProper cs = true) (n : Nesting) :
    (tokensOf cs).foldl Nesting.step n = { n with inner := cs.reverse ++ n.inner } := by
  cases cs with
  | nil => rfl
  | cons c cs =>
    rw [areProper, Bool.and_eq_true] at h
    rw [tokensOf, List.foldl_append, Component.foldl_tokens c h.1, foldl_tokensOf cs h.2,
      List.reverse_cons, List.append_assoc]
    rfl

end

/-- **The tree of the tokens of a tree is the tree again.** -/
theorem ofTokens_tokensOf {cs : List Component} (h : areProper cs = true) :
    ofTokens (tokensOf cs) = cs := by
  rw [ofTokens, foldl_tokensOf cs h, Nesting.finish, List.foldl_nil, List.append_nil,
    List.reverse_reverse]

/-! ## Blocks -/

section Blocks

variable {text : String} {o : Opening}

theorem opening_mem_tokens {body : List Component} (h : .block o body ∈ components text) :
    .opening o ∈ tokens text.toList := by
  obtain ⟨closings, hc⟩ := tokensOf_ofTokens (tokens text.toList)
  have hb := isInfix_tokensOf h
  rw [components, hc, Component.tokens] at hb
  have ho : Token.opening o ∈ tokens text.toList ++ closings.map .closing :=
    hb.subset List.mem_cons_self
  refine (List.mem_append.1 ho).resolve_right fun hm => ?_
  obtain ⟨c, -, he⟩ := List.mem_map.1 hm
  cases he

theorem isInfix_tokens {ts : List Token} (h : .block o (ts.map .token) ∈ components text)
    (hts : ∀ t ∈ ts, ∀ c, t ≠ .closing c) : (.opening o :: ts) <:+: tokens text.toList := by
  obtain ⟨closings, hc⟩ := tokensOf_ofTokens (tokens text.toList)
  have hb := isInfix_tokensOf h
  rw [components, hc, Component.tokens, tokensOf_token] at hb
  have hp : (.opening o :: ts) <+: .opening o :: (ts ++ [.closing o.closing]) :=
    List.prefix_append (.opening o :: ts) [.closing o.closing]
  refine isInfix_of_append (hp.isInfix.trans hb) fun t ht hm => ?_
  obtain ⟨c, -, rfl⟩ := List.mem_map.1 hm
  rcases List.mem_cons.1 ht with he | ht
  · cases he
  · exact hts _ ht c rfl

end Blocks

end DesignVars.Css
