import DesignVars.Proofs.Css.Component

/-!
# Blocks in a list of tokens

Where a block begins and ends is told by the brackets alone, without a tree.

* `awaited`: the brackets that the open blocks wait for;
* `blockBody`, `blockRest`: the tokens up to the bracket that closes a block, and those behind it;
* `ofTokens_opening`, `ofTokens_token`: the tree of a text, from its first token on;
* `TopBlock`: a block outside all other blocks, with its position;
* **`mem_topBlocks_iff`**, **`filterMap_bodyOf?_ofTokens`**: these blocks, in their order, are the
  blocks at the top of the tree.
-/

namespace DesignVars.Css

/-! ## Open blocks -/

/-- The brackets that the open blocks wait for, innermost first, behind one more token. Any other
closing bracket changes nothing. -/
def awaited (stack : List Closing) : Token → List Closing
  | .opening o => o.closing :: stack
  | .closing c => if stack.head? = some c then stack.tail else stack
  | _ => stack

/-- The tokens up to the bracket that closes the last open block, or all of them. -/
def blockBody (stack : List Closing) : List Token → List Token
  | [] => []
  | t :: ts => if awaited stack t = [] then [] else t :: blockBody (awaited stack t) ts

/-- The tokens behind the bracket that closes the last open block. -/
def blockRest (stack : List Closing) : List Token → List Token
  | [] => []
  | t :: ts => if awaited stack t = [] then ts else blockRest (awaited stack t) ts

theorem length_blockRest_le (stack : List Closing) (ts : List Token) :
    (blockRest stack ts).length ≤ ts.length := by
  induction ts generalizing stack with
  | nil => exact Nat.le_refl 0
  | cons t ts ih =>
    rw [blockRest, List.length_cons]
    split_ifs
    · exact Nat.le_succ _
    · exact (ih _).trans (Nat.le_succ _)

namespace Nesting

/-- The brackets that the open blocks wait for. -/
def stack (n : Nesting) : List Closing := n.frames.map fun f => f.1.closing

theorem stack_step (n : Nesting) (t : Token) : (n.step t).stack = awaited n.stack t := by
  cases t with
  | closing c =>
    obtain ⟨inner, _ | ⟨⟨o, before⟩, frames⟩⟩ := n
    · rfl
    · simp only [step, leave, awaited, stack, List.map_cons, List.head?_cons, Option.some_inj,
        List.tail_cons]
      split_ifs <;> rfl
  | _ => rfl

/-- Inside a block that stays open, the text is read as it is without the block around it. -/
theorem step_inside {inner : List Component} {frames : List (Opening × List Component)}
    {o : Opening} {before : List Component} {t : Token}
    (h : awaited (stack ⟨inner, frames ++ [(o, before)]⟩) t ≠ []) :
    step ⟨inner, frames ++ [(o, before)]⟩ t =
      ⟨(step ⟨inner, frames⟩ t).inner, (step ⟨inner, frames⟩ t).frames ++ [(o, before)]⟩ := by
  cases t with
  | closing c =>
    cases frames with
    | nil =>
      have hc : o.closing ≠ c := by
        rintro rfl
        exact h (if_pos rfl)
      exact if_neg hc
    | cons f frames =>
      simp only [step, leave, List.cons_append]
      split_ifs <;> rfl
  | _ => rfl

theorem step_close {inner before : List Component} {frames : List (Opening × List Component)}
    {o : Opening} {t : Token} (h : awaited (stack ⟨inner, frames ++ [(o, before)]⟩) t = []) :
    frames = [] ∧
      step ⟨inner, frames ++ [(o, before)]⟩ t = ⟨.block o inner.reverse :: before, []⟩ := by
  cases t with
  | closing c =>
    cases frames with
    | nil =>
      by_cases hc : o.closing = c
      · exact ⟨rfl, if_pos hc⟩
      · have hs : awaited [o.closing] (.closing c) = [o.closing] :=
          if_neg fun he => hc (Option.some.inj he)
        cases hs.symm.trans h
    | cons f frames =>
      rw [awaited] at h
      split_ifs at h
      · simp [stack] at h
      · simp [stack] at h
  | opening => cases h
  | _ => simp [awaited, stack] at h

/-- **An open block is read to its bracket**, and the text goes on behind it. -/
theorem finish_block (ts : List Token) (inner : List Component)
    (frames : List (Opening × List Component)) (o : Opening) (before : List Component) :
    (ts.foldl step ⟨inner, frames ++ [(o, before)]⟩).finish =
      ((blockRest (stack ⟨inner, frames ++ [(o, before)]⟩) ts).foldl step
        ⟨.block o ((blockBody (stack ⟨inner, frames ++ [(o, before)]⟩) ts).foldl step
          ⟨inner, frames⟩).finish :: before, []⟩).finish := by
  induction ts generalizing inner frames with
  | nil => simp [blockRest, blockBody, finish]
  | cons t ts ih =>
    rw [List.foldl_cons, blockRest, blockBody]
    by_cases h : awaited (stack ⟨inner, frames ++ [(o, before)]⟩) t = []
    · obtain ⟨rfl, hs⟩ := step_close h
      rw [if_pos h, if_pos h, hs]
      rfl
    · have hstack := stack_step ⟨inner, frames ++ [(o, before)]⟩ t
      rw [if_neg h, if_neg h, step_inside h, ih, ← step_inside h, hstack, List.foldl_cons]

theorem finish_foldl (acc : List Component) (ts : List Token) :
    (ts.foldl step ⟨acc, []⟩).finish = acc.reverse ++ ofTokens ts := by
  induction hn : ts.length using Nat.strong_induction_on generalizing acc ts with
  | _ n ih =>
    subst hn
    cases ts with
    | nil => exact (List.append_nil acc.reverse).symm
    | cons t ts =>
      -- What the first token leaves open is the same for all components before it.
      have hopen : (∃ o, t = .opening o) ∨
          ∀ acc : List Component, step ⟨acc, []⟩ t = ⟨.token t :: acc, []⟩ := by
        cases t with
        | opening o => exact .inl ⟨o, rfl⟩
        | _ => exact .inr fun _ => rfl
      rw [ofTokens, List.foldl_cons, List.foldl_cons]
      rcases hopen with ⟨o, rfl⟩ | hstep
      · have hlen := length_blockRest_le [o.closing] ts
        have hrest (acc : List Component) :=
          ih (blockRest [o.closing] ts).length (Nat.lt_succ_of_le hlen) acc _ rfl
        rw [show step {} (.opening o) = ⟨[], [] ++ [(o, [])]⟩ from rfl,
          show step ⟨acc, []⟩ (.opening o) = ⟨[], [] ++ [(o, acc)]⟩ from rfl, finish_block,
          finish_block]
        change ((blockRest [o.closing] ts).foldl step ⟨_ :: acc, []⟩).finish =
          acc.reverse ++ ((blockRest [o.closing] ts).foldl step ⟨[_], []⟩).finish
        rw [hrest, hrest, List.reverse_cons, List.append_assoc]
        rfl
      · have hrest (acc : List Component) := ih ts.length (Nat.lt_succ_self _) acc ts rfl
        rw [hstep, show step {} t = ⟨[.token t], []⟩ from hstep [], hrest, hrest,
          List.reverse_cons, List.append_assoc]
        rfl

end Nesting

/-- **A block comes first in the tree if its bracket comes first in the text.** -/
theorem ofTokens_opening (o : Opening) (ts : List Token) : ofTokens (.opening o :: ts) =
    .block o (ofTokens (blockBody [o.closing] ts)) :: ofTokens (blockRest [o.closing] ts) := by
  have h := Nesting.finish_block ts [] [] o []
  rw [Nesting.finish_foldl] at h
  exact h

theorem ofTokens_token {t : Token} (ht : ∀ o, t ≠ .opening o) (ts : List Token) :
    ofTokens (t :: ts) = .token t :: ofTokens ts := by
  have hstep : Nesting.step {} t = ⟨[.token t], []⟩ := by
    cases t with
    | opening o => exact absurd rfl (ht o)
    | _ => rfl
  rw [ofTokens, List.foldl_cons, hstep, Nesting.finish_foldl]
  rfl

theorem ofTokens_eq_map_iff {ts us : List Token}
    (hu : ∀ t ∈ us, (∀ o, t ≠ .opening o) ∧ ∀ c, t ≠ .closing c) :
    ofTokens ts = us.map .token ↔ ts = us := by
  constructor
  · intro h
    obtain ⟨closings, hc⟩ := tokensOf_ofTokens ts
    rw [h, tokensOf_token] at hc
    cases closings with
    | nil => rw [hc, List.map_nil, List.append_nil]
    | cons c closings =>
      have hm : Token.closing c ∈ us := by
        rw [hc]
        exact List.mem_append_right ts List.mem_cons_self
      exact absurd rfl ((hu _ hm).2 c)
  · rintro rfl
    induction ts with
    | nil => rfl
    | cons t ts ih =>
      obtain ⟨ht, hu⟩ := List.forall_mem_cons.1 hu
      rw [ofTokens_token ht.1, ih hu, List.map_cons]

/-! ## Blocks outside all others -/

/-- A block `o` begins at position `i` of the text, outside all other blocks and those that wait
for `stack`, and holds the tokens `body`. -/
structure TopBlock (stack : List Closing) (ts : List Token) (o : Opening) (i : Nat)
    (body : List Token) : Prop where
  opening : ts[i]? = some (.opening o)
  outside : (ts.take i).foldl awaited stack = []
  body_eq : body = blockBody [o.closing] (ts.drop (i + 1))

/-- These blocks with their positions, in their order. The text stands at a position. -/
def topBlocks (o : Opening) (stack : List Closing) (i : Nat) :
    List Token → List (Nat × List Token)
  | [] => []
  | t :: ts =>
    if t = .opening o ∧ stack = [] then
      (i, blockBody [o.closing] ts) :: topBlocks o [o.closing] (i + 1) ts
    else topBlocks o (awaited stack t) (i + 1) ts

theorem topBlock_cons_iff {stack : List Closing} {t : Token} {ts : List Token} {o : Opening}
    {i : Nat} {body : List Token} : TopBlock stack (t :: ts) o i body ↔
      (i = 0 ∧ (t = .opening o ∧ stack = []) ∧ body = blockBody [o.closing] ts) ∨
        ∃ j, i = j + 1 ∧ TopBlock (awaited stack t) ts o j body := by
  constructor
  · rintro ⟨ho, hs, hb⟩
    cases i with
    | zero => exact .inl ⟨rfl, ⟨Option.some.inj ho, hs⟩, hb⟩
    | succ j => exact .inr ⟨j, rfl, ho, hs, hb⟩
  · rintro (⟨rfl, ⟨rfl, rfl⟩, rfl⟩ | ⟨j, rfl, ho, hs, hb⟩)
    · exact ⟨rfl, rfl, rfl⟩
    · exact ⟨ho, hs, hb⟩

theorem mem_topBlocks {o : Opening} {stack : List Closing} {i j : Nat} {ts body : List Token} :
    (j, body) ∈ topBlocks o stack i ts ↔ ∃ k, j = i + k ∧ TopBlock stack ts o k body := by
  induction ts generalizing stack i with
  | nil =>
    refine ⟨nofun, ?_⟩
    rintro ⟨k, -, h⟩
    cases h.opening
  | cons t ts ih =>
    have hrest : (∃ k, j = i + 1 + k ∧ TopBlock (awaited stack t) ts o k body) ↔
        ∃ k, j = i + k ∧ ∃ l, k = l + 1 ∧ TopBlock (awaited stack t) ts o l body := by
      constructor
      · rintro ⟨k, rfl, h⟩
        exact ⟨k + 1, by omega, k, rfl, h⟩
      · rintro ⟨_, rfl, k, rfl, h⟩
        exact ⟨k, by omega, h⟩
    rw [topBlocks]
    simp only [topBlock_cons_iff, and_or_left, exists_or, ← hrest, ← ih]
    split_ifs with h
    · obtain ⟨rfl, rfl⟩ := h
      rw [List.mem_cons, Prod.mk.injEq]
      refine or_congr ⟨?_, ?_⟩ Iff.rfl
      · rintro ⟨hj, hb⟩
        exact ⟨0, hj, rfl, ⟨rfl, rfl⟩, hb⟩
      · rintro ⟨_, hj, rfl, -, hb⟩
        exact ⟨hj, hb⟩
    · simp [h]

/-- **The blocks outside all others are listed with their positions.** -/
theorem mem_topBlocks_iff {o : Opening} {i : Nat} {ts body : List Token} :
    (i, body) ∈ topBlocks o [] 0 ts ↔ TopBlock [] ts o i body := by
  simp [mem_topBlocks]

theorem pairwise_topBlocks (o : Opening) (stack : List Closing) (i : Nat) (ts : List Token) :
    (topBlocks o stack i ts).Pairwise fun x y => x.1 < y.1 := by
  induction ts generalizing stack i with
  | nil => exact .nil
  | cons t ts ih =>
    rw [topBlocks]
    split_ifs
    · refine List.pairwise_cons.2 ⟨fun x hx => ?_, ih _ _⟩
      obtain ⟨k, hk, -⟩ := mem_topBlocks.1 hx
      omega
    · exact ih _ _

theorem map_snd_topBlocks (o : Opening) (stack : List Closing) (i j : Nat) (ts : List Token) :
    (topBlocks o stack i ts).map Prod.snd = (topBlocks o stack j ts).map Prod.snd := by
  induction ts generalizing stack i j with
  | nil => rfl
  | cons t ts ih =>
    rw [topBlocks, topBlocks]
    split_ifs
    · rw [List.map_cons, List.map_cons, ih _ (i + 1) (j + 1)]
    · exact ih _ _ _

theorem map_snd_topBlocks_open {stack : List Closing} (h : stack ≠ []) (o : Opening) (i : Nat)
    (ts : List Token) : (topBlocks o stack i ts).map Prod.snd =
      (topBlocks o [] 0 (blockRest stack ts)).map Prod.snd := by
  induction ts generalizing stack i with
  | nil => rfl
  | cons t ts ih =>
    rw [topBlocks, if_neg fun hb => h hb.2, blockRest]
    split_ifs with ht
    · rw [ht]
      exact map_snd_topBlocks o [] _ _ ts
    · exact ih ht _

/-- What a block `o` holds, if the component is one. -/
def Component.bodyOf? (o : Opening) : Component → Option (List Component)
  | .block o' body => if o' = o then some body else none
  | .token _ => none

/-- **The blocks at the top of the tree are those outside all others.** -/
theorem filterMap_bodyOf?_ofTokens (o : Opening) (ts : List Token) :
    (ofTokens ts).filterMap (Component.bodyOf? o) =
      (topBlocks o [] 0 ts).map fun x => ofTokens x.2 := by
  induction hn : ts.length using Nat.strong_induction_on generalizing ts with
  | _ n ih =>
    subst hn
    have hmap (stack : List Closing) (i : Nat) (ts : List Token) :
        (topBlocks o stack i ts).map (fun x => ofTokens x.2) =
          ((topBlocks o stack i ts).map Prod.snd).map ofTokens := by
      rw [List.map_map]
      rfl
    rw [hmap]
    cases ts with
    | nil => rfl
    | cons t ts =>
      by_cases hopen : ∃ o', t = .opening o'
      · obtain ⟨o', rfl⟩ := hopen
        have hlen := length_blockRest_le [o'.closing] ts
        have hrest := ih _ (Nat.lt_succ_of_le hlen) (blockRest [o'.closing] ts) rfl
        rw [hmap, ← map_snd_topBlocks_open (List.cons_ne_nil _ _) o 1] at hrest
        rw [ofTokens_opening, List.filterMap_cons, hrest, topBlocks, Component.bodyOf?]
        by_cases ho : o' = o
        · subst ho
          rw [if_pos rfl, if_pos ⟨rfl, rfl⟩]
          rfl
        · rw [if_neg ho, if_neg fun h => ho (Token.opening.inj h.1)]
          rfl
      · have ht : ∀ o', t ≠ .opening o' := fun o' h => hopen ⟨o', h⟩
        have hs : awaited [] t = [] := by
          cases t with
          | opening o' => exact absurd rfl (ht o')
          | _ => rfl
        have hrest := ih _ (Nat.lt_succ_self _) ts rfl
        rw [hmap] at hrest
        rw [ofTokens_token ht, List.filterMap_cons, hrest, topBlocks, if_neg fun h => ht o h.1, hs,
          map_snd_topBlocks o [] 1 0]
        rfl

end DesignVars.Css
