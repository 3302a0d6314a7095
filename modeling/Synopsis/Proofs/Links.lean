import Synopsis.Proofs.Linked
import Synopsis.Proofs.Mates

/-!
# Balancing sets the right links

`RightLinks` says what the links of a token sequence should be, in terms of its
groups alone.  `rightLinks_linked` shows that the links of a tree are right.

The induction is on the tree.  An alternation is read inside a group or outside
all of them (`Region`), and every position at its own height has that group as
its home.  So has the next bar of the alternation, and the bars between the two
stand in groups of the sequence between the two.
-/

namespace Synopsis

/-! ## Right links -/

/-- The token at `k` is a bar. -/
def IsBar (ts : List Token) (k : Nat) : Prop :=
  ∃ start next, ts[k]? = some (.bar start next)

/-- Two positions have the same innermost group around them, or none. -/
def SameHome (ts : List Token) (k m : Nat) : Prop :=
  ∃ start stop, Home ts k start stop ∧ Home ts m start stop

/-- The next bar behind `k` that has the same innermost group as `k` is at `m`. -/
structure NextBar (ts : List Token) (k m : Nat) : Prop where
  behind : k < m
  bar : IsBar ts m
  same : SameHome ts k m
  first : ∀ i, k < i → i < m → IsBar ts i → ¬ SameHome ts k i

/-- The links that the token at `k` should have.  A half of a group has the other
half; a bar has the opening half of the innermost group around it, and the next
bar of that group, or its closing half when there is no such bar. -/
def RightLink (ts : List Token) (k : Nat) : Token → Prop
  | .opening _ pair => pair.isSome ∧ ∀ j, pair = some j ↔ Mates ts k j
  | .closing _ pair => pair.isSome ∧ ∀ i, pair = some i ↔ Mates ts i k
  | .bar start next => ∃ stop, Home ts k start stop ∧
    (∀ m, NextBar ts k m → next = some m) ∧ ((∀ m, ¬ NextBar ts k m) → next = stop)
  | _ => True

/-- Every token has the links that it should have. -/
def RightLinks (ts : List Token) : Prop :=
  ∀ k token, ts[k]? = some token → RightLink ts k token

/-! ## Regions -/

/-- From `first` up to `last`, tokens at the height of `first` stand directly
inside the group that opens at `start`, or outside all groups. -/
inductive Region (ts : List Token) (first last : Nat) : Option Nat → Option Nat → Prop
  | outside (hts : WellNested ts) (hlast : last = ts.length)
      (hheight : height ts first = 0) : Region ts first last none none
  | inside {i j : Nat} (hmates : Mates ts i j) (hfirst : i < first) (hlast : last = j)
      (hheight : height ts first = height ts i + 1) :
      Region ts first last (some i) (some j)

namespace Region

variable {ts : List Token} {first last : Nat} {start stop : Option Nat}

theorem later (h : Region ts first last start stop) {k : Nat} (hk : first ≤ k)
    (hheight : height ts k = height ts first) : Region ts k last start stop := by
  cases h with
  | outside hts hlast h => exact .outside hts hlast (hheight.trans h)
  | inside hmates hfirst hlast h =>
    exact .inside hmates (by omega) hlast (hheight.trans h)

theorem home (h : Region ts first last start stop) (hlast : first < last) :
    Home ts first start stop := by
  cases h with
  | outside hts _ h =>
    refine .outside fun i j hmates hi hj => ?_
    have hinside := hmates.height_inside hi (Nat.le_of_lt hj)
    have hnonneg := hts.height_nonneg i
    omega
  | inside hmates hfirst hend h =>
    exact .inside (hmates.innermost hfirst (by omega) h)

end Region

/-! ## Slices -/

/-- From `position` on, the tokens go on with `slice`. -/
def Slice (ts : List Token) (position : Nat) (slice : List Token) : Prop :=
  ∃ before after, ts = before ++ (slice ++ after) ∧ before.length = position

namespace Slice

variable {ts : List Token} {position : Nat}

theorem whole (ts : List Token) : Slice ts 0 ts :=
  ⟨[], [], by simp, rfl⟩

theorem left {l r : List Token} (h : Slice ts position (l ++ r)) :
    Slice ts position l := by
  obtain ⟨before, after, rfl, rfl⟩ := h
  exact ⟨before, r ++ after, by simp, rfl⟩

theorem right {l r : List Token} (h : Slice ts position (l ++ r)) :
    Slice ts (position + l.length) r := by
  obtain ⟨before, after, rfl, rfl⟩ := h
  exact ⟨before ++ l, after, by simp, by simp⟩

theorem tail {token : Token} {rest : List Token} (h : Slice ts position (token :: rest)) :
    Slice ts (position + 1) rest :=
  right (l := [token]) h

theorem getElem? {token : Token} {rest : List Token}
    (h : Slice ts position (token :: rest)) : ts[position]? = some token := by
  obtain ⟨before, after, rfl, rfl⟩ := h
  simp

theorem mates {kind : GroupKind} {p q : Option Nat} {inner rest : List Token}
    (h : Slice ts position (.opening kind p :: (inner ++ .closing kind q :: rest)))
    (hinner : WellNested inner) : Mates ts position (position + 1 + inner.length) := by
  obtain ⟨before, after, rfl, rfl⟩ := h
  exact ⟨before, inner, rest ++ after, kind, p, q, by simp, hinner, rfl, rfl⟩

theorem height_behind {slice : List Token} (h : Slice ts position slice)
    (hslice : WellNested slice) : height ts (position + slice.length) = height ts position := by
  obtain ⟨before, after, rfl, rfl⟩ := h
  rw [height_append_right, height_append_left _ _ (Nat.le_refl _),
    height_append_left _ _ (Nat.le_refl _), hslice.height_length, Int.add_zero]

end Slice

/-! ## Bars of other groups -/

theorem Alternation.wellNested_linked (start stop : Option Nat) (position : Nat)
    (tree : Alternation) : WellNested (tree.linked start stop position) :=
  tree.wellNested_tokens.of_unlinked (tree.unlinked_linked start stop position)

theorem Sequence.wellNested_linked (position : Nat) (tree : Sequence) :
    WellNested (tree.linked position) :=
  tree.wellNested_tokens.of_unlinked (tree.unlinked_linked position)

/-- The two halves of a group of a tree, and what stands in it and behind it. -/
theorem Slice.group {ts : List Token} {position : Nat} {kind : GroupKind}
    {inner : Alternation} {tree : Sequence}
    (h : Slice ts position ((Sequence.group kind inner tree).linked position)) :
    let closing := position + 1 + inner.width
    Mates ts position closing ∧
      ts[position]? = some (.opening kind (some closing)) ∧
      Slice ts (position + 1) (inner.linked (some position) (some closing) (position + 1)) ∧
      ts[closing]? = some (.closing kind (some position)) ∧
      Slice ts (closing + 1) (tree.linked (closing + 1)) := by
  rw [Sequence.linked] at h
  have hmates := h.mates (inner.wellNested_linked _ _ _)
  have hlast := h.tail.right
  rw [Alternation.length_linked] at hmates hlast
  exact ⟨hmates, h.getElem?, h.tail.left, hlast.getElem?, hlast.tail⟩

/-- A bar in a sequence stands in a group of the sequence. -/
theorem Sequence.exists_group_of_bar {ts : List Token} : ∀ (tree : Sequence)
    (position : Nat), Slice ts position (tree.linked position) → ∀ k, position ≤ k →
    k < position + tree.width → IsBar ts k →
    ∃ i j, Mates ts i j ∧ position ≤ i ∧ i < k ∧ k < j
  | .nil, position, _, k, hle, hlt, _ => by
    rw [Sequence.width_nil] at hlt
    omega
  | .token t tree, position, h, k, hle, hlt, ⟨a, b, hbar⟩ => by
    rw [Sequence.linked] at h
    rw [Sequence.width_token] at hlt
    have hk : k ≠ position := by
      intro heq
      subst heq
      have htoken := Option.some.inj (h.getElem?.symm.trans hbar)
      have hplain := t.2
      rw [htoken] at hplain
      cases hplain
    obtain ⟨i, j, hmates, hi, hik, hkj⟩ := tree.exists_group_of_bar (position + 1) h.tail k
      (by omega) (by omega) ⟨a, b, hbar⟩
    exact ⟨i, j, hmates, by omega, hik, hkj⟩
  | .group kind inner tree, position, h, k, hle, hlt, ⟨a, b, hbar⟩ => by
    obtain ⟨hmates, hopening, _, hclosing, hbehind⟩ := h.group
    rw [Sequence.width_group] at hlt
    have hfirst : k ≠ position := by
      intro heq
      subst heq
      rw [hopening] at hbar
      cases hbar
    have hlast : k ≠ position + 1 + inner.width := by
      intro heq
      subst heq
      rw [hclosing] at hbar
      cases hbar
    by_cases hin : k < position + 1 + inner.width
    · exact ⟨_, _, hmates, Nat.le_refl _, by omega, hin⟩
    · obtain ⟨i, j, hmates, hi, hik, hkj⟩ := tree.exists_group_of_bar _ hbehind k
        (by omega) (by omega) ⟨a, b, hbar⟩
      exact ⟨i, j, hmates, by omega, hik, hkj⟩

/-- A bar that stands in a group which `k` is not in has another home than `k`. -/
theorem not_sameHome_of_group {ts : List Token} {k m i j : Nat} (hmates : Mates ts i j)
    (hk : k < i) (him : i < m) (hmj : m < j) : ¬ SameHome ts k m := by
  rintro ⟨start, stop, hhome, hhome'⟩
  cases hhome' with
  | outside h => exact h i j hmates him hmj
  | inside h =>
    cases hhome with
    | inside h' =>
      have hle := (h.inside i j hmates him hmj).1
      have := h'.opens_before
      omega

/-! ## The links of a tree are right -/

theorem NextBar.unique {ts : List Token} {k m m' : Nat} (h : NextBar ts k m)
    (h' : NextBar ts k m') : m = m' := by
  rcases Nat.lt_trichotomy m m' with hlt | heq | hlt
  · exact absurd h.same (h'.first m h.behind hlt h.bar)
  · exact heq
  · exact absurd h'.same (h.first m' h'.behind hlt h'.bar)

section Bars

variable {ts : List Token} {k last : Nat} {start stop : Option Nat}

/-- A bar whose group ends at `last` shares its home with no position from `last`
on. -/
theorem Region.lt_of_sameHome (h : Region ts k last start stop) (hlast : k < last)
    {m : Nat} (hsame : SameHome ts k m) (hm : IsBar ts m) : m < last := by
  obtain ⟨a, b, hhome, hhome'⟩ := hsame
  obtain ⟨rfl, rfl⟩ := (h.home hlast).unique hhome
  cases h with
  | outside _ hend _ =>
    obtain ⟨_, _, hget⟩ := hm
    rw [hend]
    exact (List.getElem?_eq_some_iff.1 hget).1
  | inside _ _ hend _ =>
    cases hhome' with
    | inside h => exact hend ▸ h.closes_behind

/-- A bar at `k` has no other home than a position in the sequence behind it. -/
theorem not_sameHome_of_sequence (s : Sequence) (h : Slice ts (k + 1) (s.linked (k + 1)))
    {m : Nat} (hk : k < m) (hm : m < k + 1 + s.width) (hbar : IsBar ts m) :
    ¬ SameHome ts k m := by
  obtain ⟨i, j, hmates, hi, him, hmj⟩ := s.exists_group_of_bar (k + 1) h m hk hm hbar
  exact not_sameHome_of_group hmates (by omega) him hmj

/-- The bar in front of an alternation links to the first bar of the alternation,
or to the end of the region. -/
theorem rightLink_bar (tree : Alternation) (hregion : Region ts k last start stop)
    (h : Slice ts (k + 1) (tree.linked start stop (k + 1))) (hbar : IsBar ts k)
    (hlast : k + 1 + tree.width = last) :
    RightLink ts k (.bar start ((tree.firstBar? (k + 1)).or stop)) := by
  have hhome := hregion.home (by omega)
  have hheight : height ts (k + 1) = height ts k := by
    obtain ⟨a, b, hget⟩ := hbar
    rw [height_succ hget]
    simp [Token.rise]
  cases tree with
  | one s =>
    rw [Alternation.linked] at h
    rw [Alternation.width_one] at hlast
    have hnone : ∀ m, ¬ NextBar ts k m := by
      intro m hm
      have hlt := hregion.lt_of_sameHome (by omega) hm.same hm.bar
      exact not_sameHome_of_sequence s h hm.behind (by omega) hm.bar hm.same
    exact ⟨stop, hhome, fun m hm => absurd hm (hnone m), fun _ => rfl⟩
  | cons s rest =>
    rw [Alternation.linked] at h
    rw [Alternation.width_cons] at hlast
    have hs := h.left.height_behind (s.wellNested_linked _)
    rw [Sequence.length_linked] at hs
    have hget := h.right.getElem?
    rw [Sequence.length_linked] at hget
    have hthere := hregion.later (k := k + 1 + s.width) (by omega) (hs.trans hheight)
    have hnext : NextBar ts k (k + 1 + s.width) := by
      refine ⟨by omega, ⟨_, _, hget⟩, ?_, fun i hi him hbar => ?_⟩
      · exact ⟨start, stop, hhome, hthere.home (by omega)⟩
      · exact not_sameHome_of_sequence s h.left hi him hbar
    refine ⟨stop, hhome, fun m hm => ?_, fun hnone => absurd hnext (hnone _)⟩
    rw [hm.unique hnext]
    rfl

end Bars

mutual

theorem Alternation.rightLinks {ts : List Token} {start stop : Option Nat} {last : Nat} :
    ∀ (tree : Alternation) (position : Nat), Region ts position last start stop →
      Slice ts position (tree.linked start stop position) →
      position + tree.width = last → ∀ k token, position ≤ k →
      k < position + tree.width → ts[k]? = some token → RightLink ts k token
  | .one s, position, _, h, _, k, token, hle, hlt, hget => by
    rw [Alternation.linked] at h
    rw [Alternation.width_one] at hlt
    exact s.rightLinks position h k token hle hlt hget
  | .cons s rest, position, hregion, h, hlast, k, token, hle, hlt, hget => by
    rw [Alternation.linked] at h
    rw [Alternation.width_cons] at hlast hlt
    have hs := h.left.height_behind (s.wellNested_linked _)
    have hright := h.right
    rw [Sequence.length_linked] at hs hright
    have hbar := hright.getElem?
    have hthere := hregion.later (k := position + s.width) (by omega) hs
    by_cases hin : k < position + s.width
    · exact s.rightLinks position h.left k token hle hin hget
    · by_cases hk : k = position + s.width
      · subst hk
        obtain rfl := Option.some.inj (hget.symm.trans hbar)
        exact rightLink_bar rest hthere hright.tail ⟨_, _, hbar⟩ (by omega)
      · have hsucc := height_succ hbar
        refine rest.rightLinks (position + s.width + 1) (hthere.later (by omega) ?_)
          hright.tail (by omega) k token (by omega) (by omega) hget
        simpa [Token.rise] using hsucc

theorem Sequence.rightLinks {ts : List Token} : ∀ (tree : Sequence) (position : Nat),
    Slice ts position (tree.linked position) → ∀ k token, position ≤ k →
    k < position + tree.width → ts[k]? = some token → RightLink ts k token
  | .nil, position, _, k, token, hle, hlt, _ => by
    rw [Sequence.width_nil] at hlt
    omega
  | .token t tree, position, h, k, token, hle, hlt, hget => by
    rw [Sequence.linked] at h
    rw [Sequence.width_token] at hlt
    by_cases hk : k = position
    · subst hk
      obtain rfl := Option.some.inj (hget.symm.trans h.getElem?)
      obtain ⟨token, hplain⟩ := t
      cases token <;> trivial
    · exact tree.rightLinks (position + 1) h.tail k token (by omega) (by omega) hget
  | .group kind inner tree, position, h, k, token, hle, hlt, hget => by
    obtain ⟨hmates, hopening, hinner, hclosing, hbehind⟩ := h.group
    rw [Sequence.width_group] at hlt
    by_cases hfirst : k = position
    · subst hfirst
      obtain rfl := Option.some.inj (hget.symm.trans hopening)
      refine ⟨rfl, fun j => ⟨fun hj => ?_, fun hj => ?_⟩⟩
      · exact Option.some.inj hj ▸ hmates
      · rw [hmates.closing_unique hj]
    · by_cases hin : k < position + 1 + inner.width
      · have hregion := Region.inside hmates (Nat.lt_succ_self position) rfl
          hmates.height_first
        exact inner.rightLinks (position + 1) hregion hinner rfl k token (by omega) hin hget
      · by_cases hlast : k = position + 1 + inner.width
        · subst hlast
          obtain rfl := Option.some.inj (hget.symm.trans hclosing)
          refine ⟨rfl, fun i => ⟨fun hi => ?_, fun hi => ?_⟩⟩
          · exact Option.some.inj hi ▸ hmates
          · rw [hmates.opening_unique hi]
        · exact tree.rightLinks _ hbehind k token (by omega) (by omega) hget

end

/-- The links that a tree is written down with are right. -/
theorem rightLinks_linked (tree : Alternation) : RightLinks (tree.linked none none 0) := by
  intro k token hget
  have hlt : k < (tree.linked none none 0).length := (List.getElem?_eq_some_iff.1 hget).1
  have hregion : Region (tree.linked none none 0) 0 tree.width none none :=
    .outside (tree.wellNested_linked _ _ _) (by simp) (by simp)
  refine tree.rightLinks 0 hregion (Slice.whole _) (by simp) k token (Nat.zero_le k) ?_ hget
  simpa using hlt

end Synopsis
