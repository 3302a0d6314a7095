import Synopsis.Proofs.Tree

/-!
# The two halves of a group

`Mates ts i j` says that the group that opens at `i` closes at `j`: the kinds
agree and what stands between the halves nests.  This is said of any token
sequence, also of one that does not nest as a whole.

`height` counts the groups that are open at a position.  It never falls to the
height of an opening half before its mate.  So a half has one mate at most, two
groups never cross, and the groups around a position lie inside one another.
-/

namespace Synopsis

/-! ## Height -/

/-- What a token adds to the number of open groups. -/
def Token.rise : Token → Int
  | .opening _ _ => 1
  | .closing _ _ => -1
  | _ => 0

theorem Token.rise_plain {token : Token} (h : token.isStructural = false) :
    token.rise = 0 := by
  cases token <;> first | rfl | cases h

/-- The number of groups open at a position, less those closed too often. -/
def height : List Token → Nat → Int
  | [], _ => 0
  | _, 0 => 0
  | token :: rest, k + 1 => token.rise + height rest k

@[simp] theorem height_zero (ts : List Token) : height ts 0 = 0 := by
  cases ts <;> rfl

@[simp] theorem height_cons (token : Token) (rest : List Token) (k : Nat) :
    height (token :: rest) (k + 1) = token.rise + height rest k := rfl

theorem height_append_left (left right : List Token) {k : Nat} (h : k ≤ left.length) :
    height (left ++ right) k = height left k := by
  induction left generalizing k with
  | nil =>
    obtain rfl : k = 0 := by simpa using h
    simp
  | cons token left ih =>
    cases k with
    | zero => simp
    | succ k =>
      have hk : k ≤ left.length := by simpa using h
      rw [List.cons_append, height_cons, height_cons, ih hk]

theorem height_append_right (left right : List Token) (k : Nat) :
    height (left ++ right) (left.length + k) = height left left.length + height right k := by
  induction left with
  | nil => simp
  | cons token left ih =>
    have hk : (token :: left).length + k = (left.length + k) + 1 := by
      simp only [List.length_cons]
      omega
    rw [hk, List.cons_append, height_cons, ih, List.length_cons, height_cons]
    omega

theorem height_succ {ts : List Token} {k : Nat} {token : Token}
    (h : ts[k]? = some token) : height ts (k + 1) = height ts k + token.rise := by
  induction ts generalizing k with
  | nil => simp at h
  | cons first rest ih =>
    cases k with
    | zero =>
      obtain rfl : first = token := by simpa using h
      simp
    | succ k =>
      have hrest := ih (k := k) (by simpa using h)
      rw [height_cons, hrest, height_cons, Int.add_assoc]

namespace WellNested

/-- As many groups are closed as are opened. -/
theorem height_length {ts : List Token} (h : WellNested ts) :
    height ts ts.length = 0 := by
  induction h with
  | nil => rfl
  | plain h _ ih => simp [Token.rise_plain h, ih]
  | bar _ ih => simp [Token.rise, ih]
  | @group kind p q inner rest _ _ ihinner ihrest =>
    have hsplit := height_append_right inner (.closing kind q :: rest) (rest.length + 1)
    rw [List.length_cons, List.length_append, List.length_cons, height_cons, hsplit,
      height_cons, ihinner, ihrest]
    simp [Token.rise]

/-- No group is closed that is not open. -/
theorem height_nonneg {ts : List Token} (h : WellNested ts) (k : Nat) :
    0 ≤ height ts k := by
  induction h generalizing k with
  | nil => exact Int.le_refl 0
  | plain h _ ih =>
    cases k with
    | zero => simp
    | succ k =>
      have := ih k
      rw [height_cons, Token.rise_plain h]
      omega
  | bar _ ih =>
    cases k with
    | zero => simp
    | succ k =>
      have := ih k
      simpa [Token.rise] using this
  | @group kind p q inner rest hinner _ ihinner ihrest =>
    cases k with
    | zero => simp
    | succ k =>
      rw [height_cons]
      by_cases hk : k ≤ inner.length
      · have := ihinner k
        rw [height_append_left _ _ hk]
        simp only [Token.rise]
        omega
      · obtain ⟨m, rfl⟩ : ∃ m, k = inner.length + (m + 1) :=
          ⟨k - inner.length - 1, by omega⟩
        have := ihrest m
        rw [height_append_right, hinner.height_length, height_cons]
        simp only [Token.rise]
        omega

end WellNested

/-! ## Mates -/

/-- The group that opens at `i` closes at `j`. -/
def Mates (ts : List Token) (i j : Nat) : Prop :=
  ∃ before inner after kind p q,
    ts = before ++ .opening kind p :: (inner ++ .closing kind q :: after) ∧
      WellNested inner ∧ i = before.length ∧ j = before.length + 1 + inner.length

theorem Mates.append {ts : List Token} {i j : Nat} (h : Mates ts i j)
    (left right : List Token) :
    Mates (left ++ (ts ++ right)) (left.length + i) (left.length + j) := by
  obtain ⟨before, inner, after, kind, p, q, rfl, hinner, rfl, rfl⟩ := h
  refine ⟨left ++ before, inner, after ++ right, kind, p, q, ?_, hinner, ?_, ?_⟩
  · simp
  · simp
  · simp only [List.length_append]
    omega

/-- Every group of a token sequence that nests is closed in it. -/
theorem WellNested.exists_mate {ts : List Token} (h : WellNested ts) {i : Nat}
    {kind : GroupKind} {p : Option Nat} (hi : ts[i]? = some (.opening kind p)) :
    ∃ j, Mates ts i j ∧ j < ts.length := by
  induction h generalizing i with
  | nil => simp at hi
  | @plain token rest h _ ih =>
    cases i with
    | zero =>
      obtain rfl : token = .opening kind p := by simpa using hi
      cases h
    | succ i =>
      obtain ⟨j, hj, hlt⟩ := ih (i := i) (by simpa using hi)
      have hmates := hj.append [token] []
      refine ⟨j + 1, ?_, by simpa using hlt⟩
      simpa [Nat.add_comm] using hmates
  | @bar start next rest _ ih =>
    cases i with
    | zero => simp at hi
    | succ i =>
      obtain ⟨j, hj, hlt⟩ := ih (i := i) (by simpa using hi)
      have hmates := hj.append [.bar start next] []
      refine ⟨j + 1, ?_, by simpa using hlt⟩
      simpa [Nat.add_comm] using hmates
  | @group kind' p' q' inner rest hinner _ ihinner ihrest =>
    cases i with
    | zero =>
      refine ⟨1 + inner.length,
        ⟨[], inner, rest, kind', p', q', rfl, hinner, rfl, by simp⟩, ?_⟩
      simp only [List.length_cons, List.length_append]
      omega
    | succ i =>
      rw [List.getElem?_cons_succ] at hi
      by_cases hin : i < inner.length
      · rw [List.getElem?_append_left hin] at hi
        obtain ⟨j, hj, hlt⟩ := ihinner hi
        have hmates := hj.append [.opening kind' p'] (.closing kind' q' :: rest)
        refine ⟨j + 1, by simpa [Nat.add_comm] using hmates, ?_⟩
        simp only [List.length_cons, List.length_append]
        omega
      · rw [List.getElem?_append_right (by omega)] at hi
        obtain ⟨m, hm⟩ : ∃ m, i = inner.length + m := ⟨i - inner.length, by omega⟩
        subst hm
        cases m with
        | zero => simp at hi
        | succ m =>
          have hget : rest[m]? = some (.opening kind p) := by
            simpa [Nat.add_sub_cancel_left] using hi
          obtain ⟨j, hj, hlt⟩ := ihrest hget
          have hmates := hj.append
            (.opening kind' p' :: (inner ++ [.closing kind' q'])) []
          have hlen : (Token.opening kind' p' :: (inner ++ [.closing kind' q'])).length =
              inner.length + 2 := by simp
          rw [hlen] at hmates
          refine ⟨inner.length + 2 + j, ?_, ?_⟩
          · have hi : inner.length + (m + 1) + 1 = inner.length + 2 + m := by omega
            rw [hi]
            simpa using hmates
          · simp only [List.length_cons, List.length_append]
            omega

namespace Mates

variable {ts : List Token} {i j i' j' : Nat}

theorem opening_lt_closing (h : Mates ts i j) : i < j := by
  obtain ⟨before, inner, _, _, _, _, _, _, rfl, rfl⟩ := h
  omega

/-- Inside the group the height stays above that of its opening half. -/
theorem height_inside (h : Mates ts i j) {k : Nat} (hi : i < k) (hj : k ≤ j) :
    height ts i < height ts k := by
  obtain ⟨before, inner, after, kind, p, q, rfl, hinner, rfl, rfl⟩ := h
  obtain ⟨m, rfl⟩ : ∃ m, k = before.length + (m + 1) := ⟨k - before.length - 1, by omega⟩
  have hm : m ≤ inner.length := by omega
  have hnonneg := hinner.height_nonneg m
  rw [height_append_left _ _ (Nat.le_refl _), height_append_right, height_cons,
    height_append_left _ _ hm]
  simp only [Token.rise]
  omega

/-- At its closing half the group alone is open, on top of what was open before. -/
theorem height_closing (h : Mates ts i j) : height ts j = height ts i + 1 := by
  obtain ⟨before, inner, after, kind, p, q, rfl, hinner, rfl, rfl⟩ := h
  have hj : before.length + 1 + inner.length = before.length + (inner.length + 1) := by omega
  rw [hj, height_append_left _ _ (Nat.le_refl _), height_append_right, height_cons,
    height_append_left _ _ (Nat.le_refl _), hinner.height_length]
  simp [Token.rise]

theorem height_first (h : Mates ts i j) : height ts (i + 1) = height ts i + 1 := by
  obtain ⟨before, inner, after, kind, p, q, rfl, _, rfl, rfl⟩ := h
  rw [height_append_left _ _ (Nat.le_refl _), height_append_right, height_cons]
  simp [Token.rise]

theorem height_behind (h : Mates ts i j) : height ts (j + 1) = height ts i := by
  have hclosing := h.height_closing
  obtain ⟨before, inner, after, kind, p, q, rfl, hinner, rfl, rfl⟩ := h
  have hsplit := height_append_right before
    (.opening kind p :: (inner ++ .closing kind q :: after)) (inner.length + 1 + 1)
  have hinner' := height_append_right inner (.closing kind q :: after) 1
  have hj : before.length + 1 + inner.length + 1 =
    before.length + (inner.length + 1 + 1) := by omega
  rw [hj, hsplit, height_cons, hinner', hinner.height_length,
    height_append_left _ _ (Nat.le_refl _)]
  simp [Token.rise]

/-- An opening half has one mate at most. -/
theorem closing_unique (h : Mates ts i j) (h' : Mates ts i j') : j = j' := by
  have hlt := h.opening_lt_closing
  have hlt' := h'.opening_lt_closing
  have hbehind := h.height_behind
  have hbehind' := h'.height_behind
  rcases Nat.lt_trichotomy j j' with hj | hj | hj
  · have := h'.height_inside (k := j + 1) (by omega) (by omega)
    omega
  · exact hj
  · have := h.height_inside (k := j' + 1) (by omega) (by omega)
    omega

/-- A closing half has one mate at most. -/
theorem opening_unique (h : Mates ts i j) (h' : Mates ts i' j) : i = i' := by
  have hlt := h.opening_lt_closing
  have hlt' := h'.opening_lt_closing
  have hclosing := h.height_closing
  have hclosing' := h'.height_closing
  rcases Nat.lt_trichotomy i i' with hi | hi | hi
  · have := h.height_inside (k := i') (by omega) (by omega)
    omega
  · exact hi
  · have := h'.height_inside (k := i) (by omega) (by omega)
    omega

/-- Of two groups that share a position, the one that opens first closes last. -/
theorem closing_le (h : Mates ts i j) (h' : Mates ts i' j') (hi : i ≤ i') (hj : i' ≤ j) :
    j' ≤ j := by
  have hbehind := h.height_behind
  rcases Nat.lt_or_eq_of_le hi with hlt | rfl
  · by_cases hle : j' ≤ j
    · exact hle
    · have hopen := h.height_inside hlt hj
      have hclose := h'.height_inside (k := j + 1) (by omega) (by omega)
      omega
  · exact Nat.le_of_eq (h'.closing_unique h)

end Mates

/-! ## The innermost group -/

/-- The group from `i` to `j` is the innermost one around `k`. -/
structure Innermost (ts : List Token) (i j k : Nat) : Prop where
  mates : Mates ts i j
  opens_before : i < k
  closes_behind : k < j
  inside : ∀ i' j', Mates ts i' j' → i' < k → k < j' → i' ≤ i ∧ j ≤ j'

/-- Where the innermost group around a position opens and closes, if there is a
group around it. -/
inductive Home (ts : List Token) (k : Nat) : Option Nat → Option Nat → Prop
  | outside (h : ∀ i j, Mates ts i j → i < k → ¬ k < j) : Home ts k none none
  | inside {i j : Nat} (h : Innermost ts i j k) : Home ts k (some i) (some j)

theorem Home.unique {ts : List Token} {k : Nat} {start stop start' stop' : Option Nat}
    (h : Home ts k start stop) (h' : Home ts k start' stop') :
    start = start' ∧ stop = stop' := by
  cases h with
  | outside h =>
    cases h' with
    | outside => exact ⟨rfl, rfl⟩
    | inside h' => exact absurd h'.closes_behind (h _ _ h'.mates h'.opens_before)
  | inside h =>
    cases h' with
    | outside h' => exact absurd h.closes_behind (h' _ _ h.mates h.opens_before)
    | inside h' =>
      have hle := h.inside _ _ h'.mates h'.opens_before h'.closes_behind
      have hge := h'.inside _ _ h.mates h.opens_before h.closes_behind
      refine ⟨congrArg some ?_, congrArg some ?_⟩ <;> omega

/-- A group around a position whose opening half is the last one that is still
open there is the innermost one. -/
theorem Mates.innermost {ts : List Token} {i j k : Nat} (h : Mates ts i j) (hi : i < k)
    (hj : k < j) (hheight : height ts k = height ts i + 1) : Innermost ts i j k := by
  refine ⟨h, hi, hj, fun i' j' h' hi' hj' => ?_⟩
  have hinside := h'.height_inside hi' (Nat.le_of_lt hj')
  have hle : i' ≤ i := by
    by_cases hlt : i < i'
    · have := h.height_inside hlt (by omega)
      omega
    · omega
  exact ⟨hle, h'.closing_le h hle (by omega)⟩

end Synopsis
