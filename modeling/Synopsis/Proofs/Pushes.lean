import Synopsis.Proofs.Decisions

/-!
# The step of the expansion, with its bounds checked

The expansion works on the slots of a draft by their positions.  `Draft.pushes` takes one step
of it as it is carried out: it follows the links of the bars (`follow`), and every position and
range is checked before it is used.  A check that fails is a `Trap`.

* Every removal empties the slots at some positions (`erase`), so two drafts are compared by
  what they empty.
* `follow_linked` goes along the bars of a tree, and `branches_group` and `branches_top` take
  one branch after the other.
* `Offers.sound` and `sound_linked` are the result: a draft that offers choices, or that is
  linked as a whole, springs no trap and comes to the drafts of its first decision.
-/

namespace Synopsis

namespace Draft

/-! ## Checked operations -/

/-- What would keep the expansion from going on. -/
inductive Trap
  /-- A position behind the last slot. -/
  | outOfRange
  /-- A range that ends before it starts. -/
  | reversed
  /-- A chain of bars that turns back, and would be followed for ever. -/
  | endless
  /-- A half of a group without a link to the other half. -/
  | unclosed
  deriving DecidableEq, Repr

/-- Empties one slot. -/
def empty? (d : Draft) (i : Nat) : Except Trap Draft :=
  if i < d.length then .ok (d.set i none) else .error .outOfRange

/-- Empties the slots from `first` up to, and with, `last`. -/
def clear? (d : Draft) (first last : Nat) : Except Trap Draft :=
  if last < d.length then
    if first ≤ last then .ok (d.clear first (last + 1)) else .error .reversed
  else
    .error .outOfRange

/-- The first bar left of the alternation that starts at `start`, with its link. -/
def chainHead? (d : Draft) (start : Option Nat) : Option (Nat × Option Nat) :=
  d.zipIdx.findSome? fun (slot, i) =>
    match slot with
    | some (.bar s next) => if s = start then some (i, next) else none
    | _ => none

/-- The bars that a link leads to, one from the other, and where the last of them leads. -/
def follow (d : Draft) : Option Nat → Except Trap (List Nat × Option Nat)
  | none => .ok ([], none)
  | some i =>
    if h : i < d.length then
      match d[i] with
      | some (.bar _ next) =>
        if hnext : ∀ j ∈ next, i < j then
          (d.follow next).map fun (bars, terminal) => (i :: bars, terminal)
        else
          .error .endless
      | _ => .ok ([], some i)
    else
      .error .outOfRange
termination_by link => link.elim 0 (d.length + 1 - ·)
decreasing_by
  cases next with
  | none =>
    simp only [Option.elim_none, Option.elim_some]
    omega
  | some j =>
    have hj : i < j := hnext j rfl
    simp only [Option.elim_some]
    omega

/-- Empties a slot, if one is given. -/
def emptyAt? (d : Draft) : Option Nat → Except Trap Draft
  | some i => d.empty? i
  | none => .ok d

/-- Empties the slots from `first` up to a bar, if one is given. -/
def clearTo? (d : Draft) (first : Nat) : Option Nat → Except Trap Draft
  | some bar => d.clear? first bar
  | none => .ok d

/-- The branch between two bars of an alternation.  There is no bar before the first branch, and
none behind the last. -/
def branch (d : Draft) (start terminal : Option Nat) (head tail : Nat)
    (before behind : Option Nat) : Except Trap Draft := do
  let item ← d.emptyAt? start
  let item ← item.clearTo? head before
  match behind with
  | some bar => item.clear? bar tail
  | none => item.emptyAt? terminal

/-- Where the last branch ends: at the closing half, or at the last slot. -/
def tail? (d : Draft) : Option Nat → Except Trap Nat
  | some closing => .ok closing
  | none => if d.length = 0 then .error .outOfRange else .ok (d.length - 1)

/-- The bar before a branch. -/
def barBefore? (bars : List Nat) (choice : Nat) : Except Trap (Option Nat) :=
  if choice = 0 then .ok none
  else
    match bars[choice - 1]? with
    | some bar => .ok (some bar)
    | none => .error .outOfRange

/-- One draft for each branch of the alternation whose first bar is `bar`. -/
def branches (d : Draft) (start : Option Nat) (bar : Nat) (next : Option Nat) :
    Except Trap (List Draft) := do
  let (later, terminal) ← d.follow next
  let bars := bar :: later
  let tail ← d.tail? terminal
  (List.range (bars.length + 1)).mapM fun choice => do
    let before ← barBefore? bars choice
    d.branch start terminal (start.getD 0) tail before bars[choice]?

/-- The drafts that leave a group out: none, unless it is optional. -/
def skips (d : Draft) (kind : GroupKind) (opening closing : Nat) : Except Trap (List Draft) :=
  match kind with
  | .required => pure []
  | .optional => do
    let last := if d[closing + 1]? = some (some .ellipsis) then closing + 1 else closing
    let item ← d.clear? opening last
    pure [item]

/-- The drafts that take part of a group. -/
def keeps (d : Draft) (opening closing : Nat) : Except Trap (List Draft) :=
  match d.chainHead? (some opening) with
  | some (bar, next) => d.branches (some opening) bar next
  | none => do
    let item ← d.clear? opening opening
    let item ← item.empty? closing
    pure [item]

/-- What a half of a group comes to, wherever its other half stands. -/
def decideGroup (d : Draft) (kind : GroupKind) (i : Nat) :
    Option Nat → Except Trap (List Draft)
  | none => .error .unclosed
  | some pair => do
    let skipped ← d.skips kind (min i pair) (max i pair)
    let kept ← d.keeps (min i pair) (max i pair)
    pure (skipped ++ kept)

/-- The drafts that a draft is replaced by, or that there is nothing left to decide. -/
def pushes (d : Draft) : Except Trap (Option (List Draft)) :=
  match d.chainHead? none with
  | some (bar, next) => (d.branches none bar next).map some
  | none =>
    match d.firstMark? with
    | some (.opening kind pair, i) | some (.closing kind pair, i) =>
      (d.decideGroup kind i pair).map some
    | some (.bar start next, i) => (d.branches start i next).map some
    | _ => .ok none

/-! ## Emptied slots -/

/-- The draft with the slots at these positions emptied. -/
def erase (d : Draft) (p : Nat → Prop) [DecidablePred p] : Draft :=
  d.mapIdx fun i slot => if p i then none else slot

section Erase

variable (d : Draft) (p q : Nat → Prop) [DecidablePred p] [DecidablePred q]

@[simp] theorem length_erase : (d.erase p).length = d.length := by
  simp [erase]

theorem erase_erase : (d.erase p).erase q = d.erase fun i => p i ∨ q i := by
  refine List.ext_getElem? fun i => ?_
  simp only [erase, List.getElem?_mapIdx, Option.map_map]
  congr 1
  funext slot
  by_cases hp : p i <;> by_cases hq : q i <;> simp [hp, hq]

variable {d p q}

theorem erase_congr (h : ∀ i, i < d.length → (p i ↔ q i)) : d.erase p = d.erase q := by
  refine List.ext_getElem? fun i => ?_
  simp only [erase, List.getElem?_mapIdx]
  cases hi : d[i]? with
  | none => rfl
  | some slot => simp only [h i (List.getElem?_eq_some_iff.1 hi).1, Option.map_some]

end Erase

theorem set_none_eq_erase (d : Draft) (i : Nat) : d.set i none = d.erase (· = i) := by
  refine List.ext_getElem? fun j => ?_
  simp only [erase, List.getElem?_mapIdx, List.getElem?_set]
  by_cases hij : i = j
  · subst hij
    by_cases hi : i < d.length
    · simp [hi]
    · simp [hi]
  · simp [hij, Ne.symm hij]

theorem withoutBars_eq_erase (d : Draft) (start : Option Nat) :
    d.withoutBars start = d.erase (· ∈ d.bars start) := by
  refine List.ext_getElem? fun i => ?_
  simp only [withoutBars, erase, List.getElem?_map, List.getElem?_mapIdx]
  cases hi : d[i]? with
  | none => rfl
  | some slot =>
    have hmem : i ∈ d.bars start ↔ isBarOf start slot = true := by
      simp [bars, List.mem_zipIdx_iff_getElem?, hi]
    simp [hmem]

section Checked

variable {d : Draft}

theorem ok_bind {ε α β : Type} (a : α) (f : α → Except ε β) : (Except.ok a >>= f) = f a := rfl

theorem empty?_eq {i : Nat} (h : i < d.length) : d.empty? i = .ok (d.erase (· = i)) := by
  rw [empty?, if_pos h, set_none_eq_erase]

theorem clear?_eq {first last : Nat} (hrange : first ≤ last) (h : last < d.length) :
    d.clear? first last = .ok (d.erase fun i => first ≤ i ∧ i < last + 1) := by
  rw [clear?, if_pos h, if_pos hrange]
  rfl

theorem erase_nothing {p : Nat → Prop} [DecidablePred p] (h : ∀ i, ¬ p i) : d.erase p = d := by
  refine List.ext_getElem? fun i => ?_
  simp [erase, h]

theorem emptyAt?_eq {i? : Option Nat} (h : ∀ i ∈ i?, i < d.length) :
    d.emptyAt? i? = .ok (d.erase (i? = some ·)) := by
  cases i? with
  | none => rw [emptyAt?, erase_nothing (by simp)]
  | some i =>
    rw [emptyAt?, empty?_eq (h i rfl)]
    exact congrArg Except.ok (erase_congr fun j _ => by simp [eq_comm])

theorem clearTo?_eq {first : Nat} {bar? : Option Nat}
    (h : ∀ bar ∈ bar?, first ≤ bar ∧ bar < d.length) :
    d.clearTo? first bar? = .ok (d.erase fun i => first ≤ i ∧ i < bar?.elim first (· + 1)) := by
  cases bar? with
  | none =>
    rw [clearTo?, erase_nothing fun i => ?_]
    simp only [Option.elim_none]
    omega
  | some bar =>
    obtain ⟨hrange, hlt⟩ := h bar rfl
    rw [clearTo?, clear?_eq hrange hlt]
    rfl

end Checked

/-! ## One branch -/

section Branch

variable {d : Draft} {before behind : Option Nat}

/-- What a branch empties, when all positions are in range. -/
theorem branch_eq {start terminal : Option Nat} {head tail : Nat}
    (hstart : ∀ i ∈ start, i < d.length) (hterminal : ∀ i ∈ terminal, i < d.length)
    (htail : tail < d.length) (hbefore : ∀ bar ∈ before, head ≤ bar ∧ bar ≤ tail)
    (hbehind : ∀ bar ∈ behind, bar ≤ tail) :
    d.branch start terminal head tail before behind =
      .ok (d.erase fun i => (start = some i ∨ head ≤ i ∧ i < before.elim head (· + 1)) ∨
        behind = none ∧ terminal = some i ∨ behind.getD (tail + 1) ≤ i ∧ i < tail + 1) := by
  rw [branch, emptyAt?_eq hstart, ok_bind, clearTo?_eq fun bar hbar => ?_, erase_erase, ok_bind]
  · cases behind with
    | none =>
      simp only
      rw [emptyAt?_eq (by simpa using hterminal), erase_erase]
      refine congrArg Except.ok (erase_congr fun i _ => ?_)
      have hnone : ¬ (tail + 1 ≤ i ∧ i < tail + 1) := by omega
      simp only [true_and, Option.getD_none, hnone, or_false]
    | some bar =>
      simp only
      rw [clear?_eq (hbehind bar rfl) (by simpa using htail), erase_erase]
      refine congrArg Except.ok (erase_congr fun i _ => ?_)
      simp
  · have hrange := hbefore bar hbar
    rw [length_erase]
    omega

/-- A branch of a group empties the two halves, and what the bars at its sides set off. -/
theorem branch_group {opening closing : Nat} (hclosing : closing < d.length)
    (horder : opening < closing) (hbefore : ∀ bar ∈ before, opening < bar ∧ bar < closing)
    (hbehind : ∀ bar ∈ behind, opening < bar ∧ bar < closing) :
    d.branch (some opening) (some closing) opening closing before behind =
      .ok (d.erase fun i => (i = opening ∨ i = closing) ∨
        (opening + 1 ≤ i ∧ i < before.elim (opening + 1) (· + 1)) ∨
          behind.getD closing ≤ i ∧ i < closing) := by
  rw [branch_eq (by simpa using Nat.lt_trans horder hclosing) (by simpa using hclosing) hclosing
    (fun bar hbar => ⟨Nat.le_of_lt (hbefore bar hbar).1, Nat.le_of_lt (hbefore bar hbar).2⟩)
    fun bar hbar => Nat.le_of_lt (hbehind bar hbar).2]
  refine congrArg Except.ok (erase_congr fun i _ => ?_)
  cases before with
  | none =>
    cases behind with
    | none =>
      simp only [Option.some.injEq, Option.elim_none, Option.getD_none, true_and]
      omega
    | some bar =>
      have hbar := hbehind bar rfl
      simp only [Option.some.injEq, Option.elim_none, Option.getD_some, reduceCtorEq, false_and,
        false_or]
      omega
  | some last =>
    have hlast := hbefore last rfl
    cases behind with
    | none =>
      simp only [Option.some.injEq, Option.elim_some, Option.getD_none, true_and]
      omega
    | some bar =>
      have hbar := hbehind bar rfl
      simp only [Option.some.injEq, Option.elim_some, Option.getD_some, reduceCtorEq, false_and,
        false_or]
      omega

/-- A branch outside all groups empties what the bars at its sides set off. -/
theorem branch_top (hd : 0 < d.length) (hbefore : ∀ bar ∈ before, bar < d.length)
    (hbehind : ∀ bar ∈ behind, bar < d.length) :
    d.branch none none 0 (d.length - 1) before behind =
      .ok (d.erase fun i => (0 ≤ i ∧ i < before.elim 0 (· + 1)) ∨
        behind.getD d.length ≤ i ∧ i < d.length) := by
  have hlast : d.length - 1 + 1 = d.length := by omega
  have htail : ∀ {bar}, bar < d.length → bar ≤ d.length - 1 := by omega
  rw [branch_eq (by simp) (by simp) (by omega)
    (fun bar hbar => ⟨Nat.zero_le bar, htail (hbefore bar hbar)⟩)
    fun bar hbar => htail (hbehind bar hbar), hlast]
  exact congrArg Except.ok (erase_congr fun i _ => by simp)

end Branch

/-! ## All branches -/

/-- The bars of an alternation, from the left. -/
theorem pairwise_bars (d : Draft) (start : Option Nat) : (d.bars start).Pairwise (· < ·) := by
  have hall : (d.zipIdx.map (·.2)).Pairwise (· < ·) := by
    rw [List.zipIdx_map_snd]
    exact List.pairwise_lt_range'
  exact hall.sublist (List.filter_sublist.map _)

/-- The two bars at the sides of each branch, or what stands in for them. -/
theorem spans_eq_map_range (first stop : Nat) (bars : List Nat) :
    spans first stop bars = (List.range (bars.length + 1)).map fun j =>
      ((if j = 0 then none else bars[j - 1]?).elim first (· + 1), bars[j]?.getD stop) := by
  induction bars generalizing first with
  | nil => rfl
  | cons bar bars ih =>
    rw [spans_cons, ih, List.length_cons, List.range_succ_eq_map (n := bars.length + 1),
      List.map_cons, List.map_map]
    congr 1
    refine List.map_congr_left fun j hj => ?_
    have hlt : j < bars.length + 1 := List.mem_range.1 hj
    cases j with
    | zero => rfl
    | succ j =>
      have hj : j < bars.length := by omega
      simp [hj]

/-- A bar is not inside a branch. -/
theorem lt_or_le_of_mem_spans {first stop left right bar : Nat} {bars : List Nat}
    (hbars : bars.Pairwise (· < ·)) (hspan : (left, right) ∈ spans first stop bars)
    (hbar : bar ∈ bars) : bar < left ∨ right ≤ bar := by
  induction bars generalizing first with
  | nil => cases hbar
  | cons b bars ih =>
    obtain ⟨hfirst, hlater⟩ := List.pairwise_cons.1 hbars
    rw [spans_cons] at hspan
    rcases List.mem_cons.1 hspan with heq | hspan
    · obtain ⟨rfl, rfl⟩ := Prod.mk.inj heq
      rcases List.mem_cons.1 hbar with rfl | hbar
      · exact Or.inr (Nat.le_refl _)
      · exact Or.inr (Nat.le_of_lt (hfirst bar hbar))
    · rcases List.mem_cons.1 hbar with rfl | hbar
      · -- All later branches start behind the first bar.
        left
        rcases List.mem_cons.1 (List.of_mem_zip hspan).1 with rfl | hleft
        · exact Nat.lt_succ_self bar
        · obtain ⟨b, hb, rfl⟩ := List.mem_map.1 hleft
          exact Nat.lt_succ_of_lt (hfirst b hb)
      · exact ih hlater hspan hbar

theorem alternatives_eq_erase {d : Draft} {start : Option Nat} {first stop : Nat}
    (hbars : ∀ bar ∈ d.bars start, first ≤ bar ∧ bar < stop) :
    d.alternatives start first stop =
      (spans first stop (d.bars start)).map fun (left, right) =>
        d.erase fun i => first ≤ i ∧ i < left ∨ right ≤ i ∧ i < stop := by
  refine List.map_congr_left fun (left, right) hspan => ?_
  show ((d.withoutBars start).erase _).erase _ = _
  rw [withoutBars_eq_erase, erase_erase, erase_erase]
  refine erase_congr fun i _ => ?_
  have hbar : i ∈ d.bars start → (first ≤ i ∧ i < stop) ∧ (i < left ∨ right ≤ i) := fun hi =>
    ⟨hbars i hi, lt_or_le_of_mem_spans (d.pairwise_bars start) hspan hi⟩
  refine ⟨fun hi => ?_, Or.inr⟩
  rcases hi with hi | hi
  · have hsides := hbar hi
    omega
  · exact hi

theorem mapM_ok {α β ε : Type} {f : α → Except ε β} {g : α → β} {xs : List α}
    (h : ∀ x ∈ xs, f x = .ok (g x)) : xs.mapM f = .ok (xs.map g) := by
  induction xs with
  | nil => rfl
  | cons x xs ih =>
    rw [List.forall_mem_cons] at h
    rw [List.mapM_cons, h.1, ok_bind, ih h.2]
    rfl

section Branches

variable {d : Draft} {start terminal next : Option Nat} {bar tail first stop : Nat}
  {later : List Nat}

theorem barBefore?_eq {bars : List Nat} {choice : Nat} (h : choice < bars.length + 1) :
    barBefore? bars choice = .ok (if choice = 0 then none else bars[choice - 1]?) := by
  rw [barBefore?]
  split
  · rfl
  · have hlt : choice - 1 < bars.length := by omega
    rw [List.getElem?_eq_getElem hlt]

/-- When each branch empties its sides, the branches are the alternatives. -/
theorem branches_eq (hbars : d.bars start = bar :: later)
    (hfollow : d.follow next = .ok (later, terminal)) (htail : d.tail? terminal = .ok tail)
    (hin : ∀ b ∈ d.bars start, first ≤ b ∧ b < stop) {p : Nat → Prop} [DecidablePred p]
    (hbranch : ∀ before behind, (∀ b ∈ before, first ≤ b ∧ b < stop) →
      (∀ b ∈ behind, first ≤ b ∧ b < stop) →
      d.branch start terminal (start.getD 0) tail before behind =
        .ok (d.erase fun i => p i ∨ (first ≤ i ∧ i < before.elim first (· + 1)) ∨
          behind.getD stop ≤ i ∧ i < stop)) :
    d.branches start bar next =
      .ok ((spans first stop (d.bars start)).map fun (left, right) =>
        d.erase fun i => p i ∨ first ≤ i ∧ i < left ∨ right ≤ i ∧ i < stop) := by
  rw [branches, hfollow, ok_bind]
  simp only
  rw [htail, ok_bind, ← hbars, spans_eq_map_range, List.map_map]
  refine mapM_ok fun j hj => ?_
  rw [barBefore?_eq (List.mem_range.1 hj), ok_bind, hbranch]
  · rfl
  · intro b hb
    split at hb
    · cases hb
    · exact hin b (List.mem_of_getElem? hb)
  · exact fun b hb => hin b (List.mem_of_getElem? hb)

/-- The branches of a group are the drafts that take part of it. -/
theorem branches_group {opening closing : Nat} (hclosing : closing < d.length)
    (hin : ∀ b ∈ d.bars (some opening), opening + 1 ≤ b ∧ b < closing)
    (hbars : d.bars (some opening) = bar :: later)
    (hhalves : bars ((d.set opening none).set closing none) (some opening) =
      d.bars (some opening))
    (hfollow : d.follow next = .ok (later, some closing)) :
    d.branches (some opening) bar next = .ok (d.inclusions opening closing) := by
  have horder : opening < closing := by
    have hbar := hin bar (hbars ▸ List.mem_cons_self)
    omega
  have htail : d.tail? (some closing) = .ok closing := rfl
  rw [branches_eq hbars hfollow htail hin fun before behind hbefore hbehind =>
    branch_group hclosing horder hbefore hbehind]
  rw [inclusions, alternatives_eq_erase (by rwa [hhalves]), hhalves]
  refine congrArg Except.ok (List.map_congr_left fun span _ => ?_)
  simp only [set_none_eq_erase, erase_erase, or_assoc]

/-- The branches outside all groups are the alternatives. -/
theorem branches_top (hbars : d.bars none = bar :: later)
    (hfollow : d.follow next = .ok (later, none)) :
    d.branches none bar next = .ok (d.alternatives none 0 d.length) := by
  have hin : ∀ b ∈ d.bars none, 0 ≤ b ∧ b < d.length := by
    intro b hb
    obtain ⟨⟨slot, i⟩, hmem, rfl⟩ := List.mem_map.1 hb
    have hget := List.mem_zipIdx_iff_getElem?.1 (List.mem_filter.1 hmem).1
    exact ⟨Nat.zero_le _, (List.getElem?_eq_some_iff.1 hget).1⟩
  have hd : 0 < d.length := Nat.lt_of_le_of_lt (Nat.zero_le bar)
    (hin bar (hbars ▸ List.mem_cons_self)).2
  have htail : d.tail? none = .ok (d.length - 1) := by
    rw [tail?, if_neg (by omega)]
  rw [branches_eq (p := fun _ => False) hbars hfollow htail hin
    fun before behind hbefore hbehind => ?_, alternatives_eq_erase hin]
  · simp only [false_or]
  · rw [Option.getD_none, branch_top hd (fun b hb => (hbefore b hb).2) fun b hb => (hbehind b hb).2]
    simp only [false_or]

end Branches

/-! ## Along the bars of a tree -/

theorem follow_none (d : Draft) : d.follow none = .ok ([], none) := by
  rw [follow]

theorem follow_bar {d : Draft} {i : Nat} {start next : Option Nat}
    (hi : d[i]? = some (some (.bar start next))) (hnext : ∀ j ∈ next, i < j) :
    d.follow (some i) =
      (d.follow next).map fun (bars, terminal) => (i :: bars, terminal) := by
  obtain ⟨hlt, hget⟩ := List.getElem?_eq_some_iff.1 hi
  rw [follow, dif_pos hlt]
  split
  · rename_i heq
    rw [hget] at heq
    cases heq
    rw [dif_pos hnext]
  · rename_i hne
    exact absurd hget (hne _ _)

theorem follow_stop {d : Draft} {i : Nat} {slot : Option Token} (hi : d[i]? = some slot)
    (hslot : ∀ start next, slot ≠ some (.bar start next)) :
    d.follow (some i) = .ok ([], some i) := by
  obtain ⟨hlt, rfl⟩ := List.getElem?_eq_some_iff.1 hi
  rw [follow, dif_pos hlt]
  split
  · rename_i heq
    exact absurd heq (hslot _ _)
  · rfl

theorem chainHead?_of_barless {d : Draft} {start : Option Nat} (h : d.Barless start) :
    d.chainHead? start = none := by
  refine List.findSome?_eq_none_iff.2 ?_
  rintro ⟨slot, i⟩ hmem
  obtain ⟨_, _, hget⟩ := List.mem_zipIdx hmem
  have hslot : isBarOf start slot = false := h slot (hget ▸ List.getElem_mem _)
  simp only
  split
  · rename_i s next
    rw [if_neg]
    rintro rfl
    simp [isBarOf] at hslot
  · rfl

theorem barless_of_bars {d : Draft} {start : Option Nat} (h : d.bars start = []) :
    d.Barless start := by
  intro slot hslot
  obtain ⟨i, hi, rfl⟩ := List.mem_iff_getElem.1 hslot
  rw [bars, List.map_eq_nil_iff, List.filter_eq_nil_iff] at h
  simpa using h (d[i], i) (List.mem_zipIdx_iff_getElem?.2 (List.getElem?_eq_getElem hi))

theorem chainHead?_append {left : Draft} {start : Option Nat} (hleft : left.Barless start)
    (next : Option Nat) (right : Draft) :
    chainHead? (left ++ some (.bar start next) :: right) start = some (left.length, next) := by
  have hnone := chainHead?_of_barless hleft
  rw [chainHead?] at hnone ⊢
  rw [List.zipIdx_append, List.findSome?_append, hnone]
  simp

end Draft

theorem Alternation.mem_barPositions : ∀ (tree : Alternation) (position : Nat),
    ∀ bar ∈ tree.barPositions position, position ≤ bar ∧ bar < position + tree.width
  | .one _, _, bar, hbar => by
    cases hbar
  | .cons s rest, position, bar, hbar => by
    rw [width_cons]
    rcases List.mem_cons.1 hbar with rfl | hbar
    · omega
    · have hrest := rest.mem_barPositions _ bar hbar
      omega

namespace Draft

/-- The slots that stand behind an alternation whose last bar links to `stop`: the closing half
at `stop`, or none. -/
def Stops (position : Nat) (after : Draft) (stop : Option Nat) : Prop :=
  ∀ closing ∈ stop, closing = position ∧
    ∃ kind pair later, after = some (.closing kind pair) :: later

/-- The slots up to the first bar of an alternation, and with it. -/
def upToBar (before : Draft) (s : Sequence) (bar : Token) : Draft :=
  before ++ ((s.linked before.length).map some ++ [some bar])

@[simp] theorem length_upToBar (before : Draft) (s : Sequence) (bar : Token) :
    (upToBar before s bar).length = before.length + s.width + 1 := by
  simp only [upToBar, List.length_append, List.length_map, Sequence.length_linked,
    List.length_cons, List.length_nil]
  omega

/-- Behind a bar the same stands behind what is left of the alternation. -/
theorem Stops.behind_bar {before after : Draft} {stop : Option Nat} {s : Sequence}
    {rest : Alternation} (h : Stops (before.length + (Alternation.cons s rest).width) after stop)
    (bar : Token) : Stops ((upToBar before s bar).length + rest.width) after stop := by
  have hposition : (upToBar before s bar).length + rest.width =
      before.length + (Alternation.cons s rest).width := by
    rw [length_upToBar, Alternation.width_cons]
    omega
  rwa [hposition]

section Bars

variable (start stop : Option Nat)

/-- An alternation with a bar is one that starts behind the bar. -/
theorem slots_cons (s : Sequence) (rest : Alternation) (before after : Draft) :
    before ++ (((Alternation.cons s rest).linked start stop before.length).map some ++ after) =
      upToBar before s (.bar start ((rest.firstBar? (before.length + s.width + 1)).or stop)) ++
        ((rest.linked start stop (before.length + s.width + 1)).map some ++ after) := by
  simp [upToBar, Alternation.linked]

theorem getElem?_bar (s : Sequence) (next : Option Nat) (before after : Draft) :
    (upToBar before s (.bar start next) ++ after)[before.length + s.width]? =
      some (some (.bar start next)) := by
  rw [List.getElem?_append_left (by simp), upToBar, List.getElem?_append_right (by omega),
    List.getElem?_append_right (by simp)]
  simp

/-- Following the bars of a tree comes to all of them. -/
theorem follow_linked : ∀ (tree : Alternation) (before after : Draft),
    Stops (before.length + tree.width) after stop →
      follow (before ++ ((tree.linked start stop before.length).map some ++ after))
          ((tree.firstBar? before.length).or stop) =
        .ok (tree.barPositions before.length, stop)
  | .one s, before, after, hstop => by
    rw [Alternation.firstBar?_one, Option.none_or, Alternation.barPositions]
    cases stop with
    | none => exact follow_none _
    | some closing =>
      obtain ⟨rfl, kind, pair, later, rfl⟩ := hstop closing rfl
      have hclosing : (before ++ (((Alternation.one s).linked start
          (some (before.length + (Alternation.one s).width)) before.length).map some ++
            some (Token.closing kind pair) :: later))[before.length +
              (Alternation.one s).width]? = some (some (Token.closing kind pair)) := by
        rw [List.getElem?_append_right (by omega), List.getElem?_append_right (by simp)]
        simp
      exact follow_stop hclosing (by simp)
  | .cons s rest, before, after, hstop => by
    rw [slots_cons, Alternation.firstBar?_cons, Option.some_or, Alternation.barPositions]
    generalize hnext : (rest.firstBar? (before.length + s.width + 1)).or stop = next
    have hrest := follow_linked rest (upToBar before s (.bar start next)) after
      (hstop.behind_bar _)
    rw [length_upToBar, hnext] at hrest
    -- Links go forward, so the bars are never followed in a circle.
    have hforward : ∀ j ∈ next, before.length + s.width < j := by
      intro j hj
      rw [← hnext] at hj
      cases rest with
      | one s' =>
        have hclosing := (hstop j hj).1
        rw [Alternation.width_cons] at hclosing
        omega
      | cons s' rest' =>
        obtain rfl := Option.some.inj hj
        omega
    rw [follow_bar (getElem?_bar start s next before _) hforward, hrest]
    rfl

/-- The first bar of a tree, and the bars that its link leads to. -/
theorem chain_linked (s : Sequence) (rest : Alternation) (before after : Draft)
    (hbefore : before.Barless start) (hstart : ∀ x, start = some x → x < before.length)
    (hstop : Stops (before.length + (Alternation.cons s rest).width) after stop) :
    ∃ next,
      chainHead? (before ++
          (((Alternation.cons s rest).linked start stop before.length).map some ++ after)) start =
        some (before.length + s.width, next) ∧
      follow (before ++
          (((Alternation.cons s rest).linked start stop before.length).map some ++ after)) next =
        .ok (rest.barPositions (before.length + s.width + 1), stop) := by
  rw [slots_cons]
  refine ⟨(rest.firstBar? (before.length + s.width + 1)).or stop, ?_, ?_⟩
  · generalize (rest.firstBar? (before.length + s.width + 1)).or stop = next
    have hleft := hbefore.append (s.barless_linked hstart)
    have hhead := chainHead?_append hleft next
      ((rest.linked start stop (before.length + s.width + 1)).map some ++ after)
    simpa [upToBar] using hhead
  · generalize hnext : (rest.firstBar? (before.length + s.width + 1)).or stop = next
    have hrest := follow_linked start stop rest (upToBar before s (.bar start next)) after
      (hstop.behind_bar _)
    rwa [length_upToBar, hnext] at hrest

end Bars

/-! ## The drafts pushed -/

/-- Leaving a group out is in range. -/
theorem skips_eq {d : Draft} {opening closing : Nat} (kind : GroupKind)
    (horder : opening < closing) (hclosing : closing < d.length) :
    d.skips kind opening closing = .ok (d.exclusions kind opening closing) := by
  cases kind with
  | required => rfl
  | optional =>
    simp only [skips, exclusions, groupStop]
    split
    · rename_i hellipsis
      have hlast : closing + 1 < d.length := (List.getElem?_eq_some_iff.1 hellipsis).1
      rw [clear?, if_pos hlast, if_pos (by omega)]
      rfl
    · rw [clear?, if_pos hclosing, if_pos (by omega)]
      rfl

section Group

variable {left right : Draft} {kind : GroupKind} {inner : Alternation}

/-- The alternation of a group stands between its two halves. -/
theorem group_eq : left ++ (groupSlots left.length kind inner ++ right) =
    (left ++ [some (.opening kind (some (left.length + 1 + inner.width)))]) ++
      ((inner.linked (some left.length) (some (left.length + 1 + inner.width))
        (left.length + 1)).map some ++ some (.closing kind (some left.length)) :: right) := by
  simp [groupSlots_eq]

/-- The bars of a group are those of its tree, whatever stands in the place of its halves. -/
theorem bars_between (inner : Alternation) (hleft : left.Markless)
    (hright : right.Barless (some left.length)) (first last : Option Token)
    (hfirst : isBarOf (some left.length) first = false)
    (hlast : isBarOf (some left.length) last = false) :
    bars ((left ++ [first]) ++ ((inner.linked (some left.length)
        (some (left.length + 1 + inner.width)) (left.length + 1)).map some ++ last :: right))
        (some left.length) = inner.barPositions (left.length + 1) := by
  have hbefore : Barless (some left.length) (left ++ [first]) :=
    (hleft.barless _).append (by simpa [Barless] using hfirst)
  have hafter : Barless (some left.length) (last :: right) := by
    simpa [Barless, hlast] using hright
  have hregion := bars_region (some left.length) (some (left.length + 1 + inner.width)) inner
    hbefore hafter (by simp)
  simpa only [List.length_append, List.length_singleton] using hregion

/-- Taking part of a whole group is in range. -/
theorem keeps_eq (kind : GroupKind) (inner : Alternation) (hleft : left.Markless)
    (hright : right.Barless (some left.length)) :
    keeps (left ++ (groupSlots left.length kind inner ++ right)) left.length
        (left.length + 1 + inner.width) =
      .ok (inclusions (left ++ (groupSlots left.length kind inner ++ right)) left.length
        (left.length + 1 + inner.width)) := by
  have hbars := bars_between inner hleft hright
    (some (.opening kind (some (left.length + 1 + inner.width))))
    (some (.closing kind (some left.length))) rfl rfl
  have hhalves := bars_between inner hleft hright none none rfl rfl
  rw [← group_eq] at hbars
  rw [← halves_eq left right kind] at hhalves
  generalize hd : left ++ (groupSlots left.length kind inner ++ right) = d at hbars hhalves ⊢
  have hlength : left.length + 1 + inner.width < d.length := by
    rw [← hd]
    simp only [List.length_append, length_groupSlots]
    omega
  have hin : ∀ b ∈ d.bars (some left.length),
      left.length + 1 ≤ b ∧ b < left.length + 1 + inner.width := by
    rw [hbars]
    exact inner.mem_barPositions _
  cases inner with
  | one s =>
    -- Without a bar there is one alternative, and only the halves are emptied.
    generalize hclosing : left.length + 1 + (Alternation.one s).width = closing at *
    have hnone : d.bars (some left.length) = [] := hbars
    have hkept : d.inclusions left.length closing =
        [d.erase fun i => i = left.length ∨ i = closing] := by
      rw [inclusions, alternatives_eq_erase (by rwa [hhalves, ← hbars]), hhalves, ← hbars,
        hnone, spans_nil]
      simp only [List.map_cons, List.map_nil, set_none_eq_erase, erase_erase]
      exact congrArg (fun c => [c]) (erase_congr fun i _ => by omega)
    rw [keeps, chainHead?_of_barless (barless_of_bars hnone), hkept]
    simp only
    rw [clear?_eq (Nat.le_refl _) (by omega), ok_bind, empty?_eq (by simpa using hlength), ok_bind,
      erase_erase]
    exact congrArg (fun c => Except.ok [c]) (erase_congr fun i _ => by omega)
  | cons s rest =>
    obtain ⟨next, hhead, hfollow⟩ := chain_linked (some left.length)
      (some (left.length + 1 + (Alternation.cons s rest).width)) s rest
      (left ++ [some (.opening kind (some (left.length + 1 + (Alternation.cons s rest).width)))])
      (some (.closing kind (some left.length)) :: right)
      ((hleft.barless _).append (by simp [Barless, isBarOf])) (by simp) (by simp [Stops])
    simp only [List.length_append, List.length_singleton] at hhead hfollow
    rw [← group_eq, hd] at hhead hfollow
    -- The chain of the bars ends at the closing half.
    rw [keeps, hhead]
    exact branches_group hlength hin hbars (hhalves.trans hbars.symm) hfollow

end Group

/-- The step springs no trap, and comes to the drafts of the first decision. -/
def Sound (d : Draft) : Prop :=
  ∃ drafts?, d.pushes = .ok drafts? ∧ d.outcome = drafts?.elim .finished .choices

namespace Sound

variable {d : Draft} (h : d.Sound)
include h

theorem pushes_of_finished (hfinished : d.outcome = .finished) : d.pushes = .ok none := by
  obtain ⟨drafts?, hpushes, houtcome⟩ := h
  cases drafts? with
  | none => exact hpushes
  | some drafts => cases hfinished.symm.trans houtcome

theorem pushes_of_choices {drafts : List Draft} (hchoices : d.outcome = .choices drafts) :
    d.pushes = .ok (some drafts) := by
  obtain ⟨drafts?, hpushes, houtcome⟩ := h
  cases drafts? with
  | none => cases hchoices.symm.trans houtcome
  | some drafts' =>
    obtain rfl := Outcome.choices.inj (hchoices.symm.trans houtcome)
    exact hpushes

end Sound

/-- Deciding the first group of a draft that offers choices is in range. -/
theorem Offers.sound {d : Draft} {cs : List (List Token)} (h : Offers 0 d cs) : d.Sound := by
  have hnone : d.Barless none := h.barless fun _ hx => by cases hx
  have hbars : d.bars none = [] := barsFrom_of_barless hnone 0
  have hhead := chainHead?_of_barless hnone
  rcases h.first_group with ⟨hd, -⟩ | ⟨left, right, kind, inner, rs, rs', rfl, hleft, hin, -, -⟩
  · refine ⟨none, ?_, outcome_of_markless hd⟩
    rw [pushes, hhead, firstMark?_of_markless hd]
  · rw [Nat.zero_add] at hbars hhead hin ⊢
    have hfirst : firstMark? (left ++ (groupSlots left.length kind inner ++ right)) =
        some (.opening kind (some (left.length + 1 + inner.width)), left.length) := by
      rw [groupSlots_eq]
      exact firstMark?_append hleft _ rfl _
    have hright : right.Barless (some left.length) := hin.barless fun x hx => by
      obtain rfl := Option.some.inj hx
      omega
    have hkeeps := keeps_eq kind inner hleft hright
    have horder : left.length < left.length + 1 + inner.width := by omega
    have hclosing : left.length + 1 + inner.width <
        (left ++ (groupSlots left.length kind inner ++ right)).length := by
      simp only [List.length_append, length_groupSlots]
      omega
    generalize left ++ (groupSlots left.length kind inner ++ right) = d at *
    generalize left.length + 1 + inner.width = closing at *
    refine ⟨some (d.exclusions kind left.length closing ++ d.inclusions left.length closing),
      ?_, ?_⟩
    · -- The half that is found first is the opening one, so the positions are in order.
      rw [pushes, hhead, hfirst]
      simp only [decideGroup]
      rw [Nat.min_eq_left (Nat.le_of_lt horder), Nat.max_eq_right (Nat.le_of_lt horder),
        skips_eq kind horder hclosing, ok_bind, hkeeps, ok_bind]
      rfl
    · rw [outcome, hbars, hfirst]
      simp only [List.isEmpty_nil, if_true, if_pos horder]
      rfl

/-- Deciding the bars outside all groups of a balanced grammar is in range. -/
theorem sound_linked (tree : Alternation) : Sound ((tree.linked none none 0).map some) := by
  cases tree with
  | one s => exact (offers_linked s 0).sound
  | cons s rest =>
    have hempty : Barless none [] := by simp [Barless]
    have hregion := bars_region none none (.cons s rest) hempty hempty (by simp)
    obtain ⟨next, hhead, hfollow⟩ := chain_linked none none s rest [] [] hempty (by simp)
      (by simp [Stops])
    simp only [List.nil_append, List.append_nil, List.length_nil,
      Nat.zero_add] at hregion hhead hfollow
    rw [Alternation.barPositions, Nat.zero_add] at hregion
    generalize ((Alternation.cons s rest).linked none none 0).map some = d at *
    refine ⟨some (alternatives d none 0 d.length), ?_, ?_⟩
    · rw [pushes, hhead]
      simp only
      rw [branches_top hregion hfollow]
      rfl
    · rw [outcome, hregion]
      rfl

end Draft

end Synopsis
