import Synopsis.Grammar.Basic

/-!
# Drafts

A draft is a grammar on its way to a flat variant.  A token that a decision
has removed leaves an empty slot, so positions, and the links that hold
positions, stay valid.

`Draft.outcome` decides the first open question of a draft: which alternative
of an alternation to take, or whether an optional group takes part.  Every
choice removes a structural token (`marks_lt_of_mem_choices`), so the
decisions come to an end.  Then `Draft.compact` reads the variant off.
-/

namespace Synopsis

/-- The slots of a grammar, some of them empty. -/
abbrev Draft := List (Option Token)

namespace Draft

/-- The draft that nothing has been removed from. -/
def ofGrammar (g : Grammar) : Draft :=
  g.tokens.map some

/-- A slot that holds a structural token. -/
def isMark (slot : Option Token) : Bool :=
  slot.any Token.isStructural

/-- The number of structural tokens left. -/
def marks (d : Draft) : Nat :=
  d.countP isMark

/-! ## Removing tokens -/

/-- Empties the slots from `first` up to, and without, `stop`. -/
def clear (d : Draft) (first stop : Nat) : Draft :=
  d.mapIdx fun i slot => if first ≤ i ∧ i < stop then none else slot

/-- The slot holds a bar of the alternation that starts at `start`. -/
def isBarOf (start : Option Nat) : Option Token → Bool
  | some (.bar s _) => s == start
  | _ => false

/-- The positions of the bars left of the alternation that starts at `start`. -/
def bars (d : Draft) (start : Option Nat) : List Nat :=
  (d.zipIdx.filter fun (slot, _) => isBarOf start slot).map (·.2)

/-- Empties the slots of these bars. -/
def withoutBars (d : Draft) (start : Option Nat) : Draft :=
  d.map fun slot => if isBarOf start slot then none else slot

/-! ## Choices -/

/-- The spans that the bars cut a region into, each as its first position and
the position behind its last. -/
def spans (first stop : Nat) (bars : List Nat) : List (Nat × Nat) :=
  (first :: bars.map (· + 1)).zip (bars ++ [stop])

/-- One draft for each alternative of the alternation that starts at `start`
and fills the region from `first` to `stop`. -/
def alternatives (d : Draft) (start : Option Nat) (first stop : Nat) : List Draft :=
  (spans first stop (d.bars start)).map fun (left, right) =>
    ((d.withoutBars start).clear first left).clear right stop

/-- The position behind a group whose closing half stands at `closing`.  An
ellipsis directly behind the group belongs to it. -/
def groupStop (d : Draft) (closing : Nat) : Nat :=
  if d[closing + 1]? = some (some .ellipsis) then closing + 2 else closing + 1

/-- The drafts that leave a group out: none, unless it is optional. -/
def exclusions (d : Draft) (kind : GroupKind) (opening closing : Nat) : List Draft :=
  match kind with
  | .required => []
  | .optional => [d.clear opening (d.groupStop closing)]

/-- The drafts that take part of a group: one for each of its alternatives. -/
def inclusions (d : Draft) (opening closing : Nat) : List Draft :=
  alternatives ((d.set opening none).set closing none) (some opening)
    (opening + 1) closing

/-- The first structural token left, with its position. -/
def firstMark? (d : Draft) : Option (Token × Nat) :=
  d.zipIdx.findSome? fun (slot, i) =>
    match slot with
    | some token => if token.isStructural then some (token, i) else none
    | none => none

/-- What a draft comes to. -/
inductive Outcome
  /-- Nothing is left to decide. -/
  | finished
  /-- The drafts that the first decision leads to, in source order. -/
  | choices (drafts : List Draft)
  /-- A structural token is left without its partner. -/
  | broken
  deriving DecidableEq, Repr

/-- The first decision of a draft.  An alternation outside all groups spans
everything, so it comes first; then comes the first group left. -/
def outcome (d : Draft) : Outcome :=
  if (d.bars none).isEmpty then
    match d.firstMark? with
    | none => .finished
    | some (.opening kind (some closing), opening) =>
      if opening < closing then
        .choices (d.exclusions kind opening closing ++ d.inclusions opening closing)
      else
        .broken
    | some _ => .broken
  else
    .choices (d.alternatives none 0 d.length)

/-! ## Every choice removes a structural token -/

private theorem not_isMark_none : ¬ isMark none = true := by
  decide

private theorem countP_mapIdx_le {α : Type} {p : α → Bool} {f : Nat → α → α}
    (hf : ∀ i x, p (f i x) = true → p x = true) (l : List α) :
    (l.mapIdx f).countP p ≤ l.countP p := by
  induction l generalizing f with
  | nil => simp
  | cons x l ih =>
    have hl := ih (fun i => hf (i + 1))
    have hx := hf 0 x
    rw [List.mapIdx_cons, List.countP_cons, List.countP_cons]
    by_cases hp : p (f 0 x) = true
    · rw [if_pos hp, if_pos (hx hp)]
      omega
    · rw [if_neg hp]
      omega

theorem marks_clear_le (d : Draft) (first stop : Nat) :
    (d.clear first stop).marks ≤ d.marks := by
  refine countP_mapIdx_le (fun i slot h => ?_) d
  split at h
  · exact absurd h not_isMark_none
  · exact h

theorem marks_set_none_le (d : Draft) (i : Nat) :
    marks (d.set i none) ≤ d.marks := by
  unfold marks
  rcases Nat.lt_or_ge i d.length with hi | hi
  · rw [List.countP_set hi, if_neg not_isMark_none]
    exact Nat.sub_le _ _
  · exact Nat.le_of_eq (by rw [List.set_eq_of_length_le hi])

theorem marks_set_none_lt {d : Draft} {i : Nat} {slot : Option Token}
    (hi : d[i]? = some slot) (hslot : isMark slot = true) :
    marks (d.set i none) < d.marks := by
  obtain ⟨hlt, rfl⟩ := List.getElem?_eq_some_iff.1 hi
  have hpos : 0 < d.countP isMark :=
    List.countP_pos_iff.2 ⟨_, List.getElem_mem hlt, hslot⟩
  unfold marks
  rw [List.countP_set hlt, if_pos hslot, if_neg not_isMark_none]
  omega

/-- Clearing a region that holds a structural token removes it. -/
theorem marks_clear_lt {d : Draft} {i first stop : Nat} {slot : Option Token}
    (hi : d[i]? = some slot) (hslot : isMark slot = true) (hfirst : first ≤ i)
    (hstop : i < stop) : (d.clear first stop).marks < d.marks := by
  have hclear : d.clear first stop = clear (d.set i none) first stop := by
    refine List.ext_getElem? fun j => ?_
    simp only [clear, List.getElem?_mapIdx, List.getElem?_set]
    by_cases hij : i = j
    · subst hij
      have hlt : i < d.length := (List.getElem?_eq_some_iff.1 hi).1
      simp [hfirst, hstop, hlt]
    · simp [hij]
  rw [hclear]
  exact Nat.lt_of_le_of_lt (marks_clear_le _ _ _) (marks_set_none_lt hi hslot)

theorem isMark_of_isBarOf {start : Option Nat} {slot : Option Token}
    (h : isBarOf start slot = true) : isMark slot = true := by
  unfold isBarOf at h
  split at h
  · rfl
  · exact absurd h Bool.false_ne_true

theorem marks_withoutBars (d : Draft) (start : Option Nat) :
    (d.withoutBars start).marks + d.countP (isBarOf start) = d.marks := by
  unfold withoutBars marks
  induction d with
  | nil => simp
  | cons slot d ih =>
    rw [List.map_cons, List.countP_cons, List.countP_cons, List.countP_cons, ← ih]
    by_cases h : isBarOf start slot = true
    · rw [if_pos h, if_pos h, if_neg not_isMark_none, if_pos (isMark_of_isBarOf h)]
      omega
    · rw [if_neg h, if_neg h]
      omega

theorem marks_alternatives_le {d c : Draft} {start : Option Nat} {first stop : Nat}
    (h : c ∈ d.alternatives start first stop) :
    c.marks ≤ (d.withoutBars start).marks := by
  obtain ⟨⟨left, right⟩, _, rfl⟩ := List.mem_map.1 h
  exact Nat.le_trans (marks_clear_le _ _ _) (marks_clear_le _ _ _)

/-- The alternatives of an alternation that has a bar have fewer structural
tokens. -/
theorem marks_alternatives_lt {d c : Draft} {start : Option Nat} {first stop : Nat}
    (hbars : d.bars start ≠ []) (h : c ∈ d.alternatives start first stop) :
    c.marks < d.marks := by
  have hle := marks_alternatives_le h
  have hsum := marks_withoutBars d start
  obtain ⟨i, hi⟩ := List.exists_mem_of_ne_nil _ hbars
  obtain ⟨⟨slot, j⟩, hmem, rfl⟩ := List.mem_map.1 hi
  obtain ⟨hmem, hbar⟩ := List.mem_filter.1 hmem
  have hslot : slot ∈ d := List.mem_of_getElem? (List.mem_zipIdx_iff_getElem?.1 hmem)
  have : 0 < d.countP (isBarOf start) := List.countP_pos_iff.2 ⟨slot, hslot, hbar⟩
  omega

theorem firstMark?_eq_some {d : Draft} {token : Token} {i : Nat}
    (h : d.firstMark? = some (token, i)) :
    d[i]? = some (some token) ∧ token.isStructural = true := by
  obtain ⟨⟨slot, j⟩, hmem, hf⟩ := List.exists_of_findSome?_eq_some h
  have hget := List.mem_zipIdx_iff_getElem?.1 hmem
  rcases slot with _ | t
  · simp at hf
  · simp only at hf hget
    split at hf
    · rename_i hs
      obtain ⟨rfl, rfl⟩ := Prod.mk.inj (Option.some.inj hf)
      exact ⟨hget, hs⟩
    · simp at hf

/-- Each draft that a decision leads to has fewer structural tokens. -/
theorem marks_lt_of_mem_choices {d c : Draft} {drafts : List Draft}
    (h : d.outcome = .choices drafts) (hc : c ∈ drafts) : c.marks < d.marks := by
  unfold outcome at h
  split at h
  · split at h
    · simp at h
    · rename_i kind closing opening hfirst
      obtain ⟨hget, hs⟩ := firstMark?_eq_some hfirst
      split at h
      · rename_i hlt
        obtain rfl := Outcome.choices.inj h
        rcases List.mem_append.1 hc with hc | hc
        · cases kind with
          | required => simp [exclusions] at hc
          | optional =>
            obtain rfl : c = d.clear opening (d.groupStop closing) := by
              simpa [exclusions] using hc
            refine marks_clear_lt hget hs (Nat.le_refl _) ?_
            unfold groupStop
            split <;> omega
        · have hle := marks_alternatives_le hc
          have hbars := marks_withoutBars ((d.set opening none).set closing none)
            (some opening)
          have hset := marks_set_none_le (d.set opening none) closing
          have := marks_set_none_lt hget hs
          omega
      · simp at h
    · simp at h
  · rename_i hbars
    obtain rfl := Outcome.choices.inj h
    exact marks_alternatives_lt (by simpa using hbars) hc

/-! ## Compaction -/

/-- Drops every separator that follows another one.  `spaced` says whether the
text before the list counts as a separator. -/
def squeeze (spaced : Bool) : List Token → List Token
  | [] => []
  | token :: rest =>
    if token.isSeparator && spaced then
      squeeze spaced rest
    else
      token :: squeeze token.isSeparator rest

/-- The list without a separator at its end. -/
def dropLastSeparator (tokens : List Token) : List Token :=
  if tokens.getLast?.any Token.isSeparator then tokens.dropLast else tokens

/-- The tokens left, with single separators between them and none at either
end. -/
def compact (d : Draft) : Grammar :=
  ⟨dropLastSeparator (squeeze true (d.filterMap id))⟩

end Draft

end Synopsis
