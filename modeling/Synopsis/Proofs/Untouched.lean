import Synopsis.Proofs.OpenGroups
import Synopsis.Proofs.Pushes

/-!
# Groups that are left are left whole

Decisions only empty slots (`Pruned`), and a group goes only with both its halves.  So a draft
that offers choices still has whole groups wherever it has a structural token
(`Offers.exists_group`), and the groups around it that are left are whole as well.

`Safe` puts this together with the step: the first structural token is the opening half of a
whole group, the step is in range, and the drafts it leads to have fewer structural tokens.
`Item` holds of the drafts that the expansion can come to: it holds of the first one and is kept
by each decision (`Item.of_choices`), and such drafts are safe (`Item.safe`).
-/

namespace Synopsis

namespace Draft

/-! ## Emptied slots -/

/-- The draft `e` comes from `d` by emptying slots. -/
structure Pruned (d e : Draft) : Prop where
  length_eq : e.length = d.length
  left : ∀ (i : Nat) (token : Token), e[i]? = some (some token) → d[i]? = some (some token)

namespace Pruned

variable {d c b : Draft}

theorem refl (d : Draft) : Pruned d d :=
  ⟨rfl, fun _ _ h => h⟩

theorem trans (h : Pruned d c) (h' : Pruned c b) : Pruned d b :=
  ⟨h'.length_eq.trans h.length_eq, fun i token hi => h.left i token (h'.left i token hi)⟩

theorem erase (d : Draft) (p : Nat → Prop) [DecidablePred p] : Pruned d (d.erase p) := by
  refine ⟨length_erase d p, fun i token hi => ?_⟩
  rw [Draft.erase, List.getElem?_mapIdx] at hi
  obtain ⟨slot, hslot, heq⟩ := Option.map_eq_some_iff.1 hi
  split at heq
  · cases heq
  · rw [hslot, heq]

theorem alternatives {start : Option Nat} {first stop : Nat}
    (h : c ∈ d.alternatives start first stop) : Pruned d c := by
  obtain ⟨⟨left, right⟩, -, rfl⟩ := List.mem_map.1 h
  have hbars : Pruned d (d.withoutBars start) := withoutBars_eq_erase d start ▸ erase d _
  exact (hbars.trans (erase _ _)).trans (erase _ _)

/-- A decision only empties slots. -/
theorem of_choices {drafts : List Draft} (h : d.outcome = .choices drafts) (hc : c ∈ drafts) :
    Pruned d c := by
  unfold outcome at h
  split at h
  · split at h
    · cases h
    · rename_i kind closing opening _
      split at h
      · obtain rfl := Outcome.choices.inj h
        rcases List.mem_append.1 hc with hc | hc
        · cases kind with
          | required => cases hc
          | optional =>
            obtain rfl := List.mem_singleton.1 hc
            exact erase _ _
        · have hhalves : Pruned d ((d.set opening none).set closing none) := by
            rw [set_none_eq_erase, set_none_eq_erase]
            exact (erase _ _).trans (erase _ _)
          exact hhalves.trans (alternatives hc)
      · cases h
    · cases h
  · obtain rfl := Outcome.choices.inj h
    exact alternatives hc

end Pruned

/-! ## The groups of a draft -/

/-- A structural token that is left stands in a group, and all slots of the group are left. -/
theorem Offers.exists_group {position : Nat} {d : Draft} {cs : List (List Token)}
    (h : Offers position d cs) {k : Nat} {token : Token} (hk : d[k]? = some (some token))
    (htoken : token.isStructural = true) :
    ∃ (left right : Draft) (kind : GroupKind) (inner : Alternation),
      d = left ++ (groupSlots (position + left.length) kind inner ++ right) ∧
        left.length ≤ k ∧ k < left.length + (inner.width + 2) := by
  induction h generalizing k with
  | nil => cases hk
  | @gap position d cs _ ih =>
    cases k with
    | zero => cases hk
    | succ k =>
      obtain ⟨left, right, kind, inner, rfl, hle, hlt⟩ := ih hk
      refine ⟨none :: left, right, kind, inner, ?_, ?_, ?_⟩
      · simp [Nat.add_assoc, Nat.add_comm 1]
      all_goals
        rw [List.length_cons]
        omega
  | @token position d cs t _ ih =>
    cases k with
    | zero =>
      obtain rfl : t.1 = token := by simpa using hk
      cases t.2.symm.trans htoken
    | succ k =>
      obtain ⟨left, right, kind, inner, rfl, hle, hlt⟩ := ih hk
      refine ⟨some t.1 :: left, right, kind, inner, ?_, ?_, ?_⟩
      · simp [Nat.add_assoc, Nat.add_comm 1]
      all_goals
        rw [List.length_cons]
        omega
  | @group position d cs cs' kind inner _ _ ih _ =>
    by_cases hin : k < inner.width + 2
    · exact ⟨[], d, kind, inner, rfl, Nat.zero_le k, by simpa using hin⟩
    · rw [List.getElem?_append_right (by simpa using hin), length_groupSlots] at hk
      obtain ⟨left, right, kind', inner', rfl, hle, hlt⟩ := ih hk
      refine ⟨groupSlots position kind inner ++ left, right, kind', inner', ?_, ?_, ?_⟩
      · simp [Nat.add_assoc]
      all_goals
        rw [List.length_append, length_groupSlots]
        omega

end Draft

/-- Tokens that stand one by one in a sequence are a slice of it. -/
theorem Slice.of_getElem? {ts slice : List Token} {position : Nat}
    (hle : position + slice.length ≤ ts.length)
    (h : ∀ i token, slice[i]? = some token → ts[position + i]? = some token) :
    Slice ts position slice := by
  have hslice : (ts.drop position).take slice.length = slice := by
    refine List.ext_getElem? fun i => ?_
    by_cases hi : i < slice.length
    · have hget := List.getElem?_eq_getElem hi
      rw [List.getElem?_take_of_lt hi, List.getElem?_drop, h i _ hget, hget]
    · rw [List.getElem?_eq_none (by simp; omega), List.getElem?_eq_none (by omega)]
  refine ⟨ts.take position, (ts.drop position).drop slice.length, ?_, by simp; omega⟩
  have hbehind := List.take_append_drop slice.length (ts.drop position)
  rw [hslice] at hbehind
  rw [hbehind, List.take_append_drop]

namespace Draft

section Whole

variable {ts : List Token} {d : Draft} {cs : List (List Token)} {o c k : Nat} {token : Token}

/-- The slots from `o` up to, and with, `c` hold the tokens that stood there at first. -/
def Untouched (ts : List Token) (d : Draft) (o c : Nat) : Prop :=
  ∀ k, o ≤ k → k ≤ c → d[k]? = ts[k]?.map some

/-- A slot that is not empty. -/
def Holds (d : Draft) (k : Nat) : Prop :=
  ∃ token, d[k]? = some (some token)

theorem Pruned.holds_eq (h : Pruned (ts.map some) d) (hk : d[k]? = some (some token)) :
    ts[k]? = some token := by
  have hts := h.left k token hk
  rw [List.getElem?_map] at hts
  obtain ⟨token', htoken, heq⟩ := Option.map_eq_some_iff.1 hts
  rw [htoken, Option.some.inj heq]

/-- A structural token that is left stands in a group of the grammar that is left whole. -/
theorem Offers.exists_untouched (h : Offers 0 d cs) (hpruned : Pruned (ts.map some) d)
    (hk : d[k]? = some (some token)) (htoken : token.isStructural = true) :
    ∃ o c, Mates ts o c ∧ o ≤ k ∧ k ≤ c ∧ Untouched ts d o c := by
  obtain ⟨left, right, kind, inner, rfl, hle, hlt⟩ := h.exists_group hk htoken
  rw [Nat.zero_add] at hk hpruned ⊢
  have hslots : ∀ i token, ((Sequence.group kind inner .nil).linked left.length)[i]? =
      some token → (left ++ (groupSlots left.length kind inner ++ right))[left.length + i]? =
        some (some token) := by
    intro i token hi
    have hin : i < (groupSlots left.length kind inner).length := by
      rw [groupSlots, List.length_map]
      exact (List.getElem?_eq_some_iff.1 hi).1
    rw [List.getElem?_append_right (by omega), Nat.add_sub_cancel_left,
      List.getElem?_append_left hin, groupSlots, List.getElem?_map, hi]
    rfl
  have hlength := hpruned.length_eq
  simp only [List.length_append, length_groupSlots, List.length_map] at hlength
  have hslice : Slice ts left.length ((Sequence.group kind inner .nil).linked left.length) :=
    Slice.of_getElem? (by simp; omega) fun i token hi => hpruned.holds_eq (hslots i token hi)
  refine ⟨left.length, left.length + 1 + inner.width, hslice.group.1, hle, by omega,
    fun j hj hj' => ?_⟩
  obtain ⟨i, rfl⟩ : ∃ i, j = left.length + i := ⟨j - left.length, by omega⟩
  have hi : i < ((Sequence.group kind inner .nil).linked left.length).length := by
    rw [Sequence.length_linked, Sequence.width_group, Sequence.width_nil]
    omega
  have hslot := hslots i _ (List.getElem?_eq_getElem hi)
  rw [hslot, hpruned.holds_eq hslot]
  rfl

/-- A part of an untouched range is untouched. -/
theorem Untouched.mono {o' c' : Nat} (h : Untouched ts d o c) (ho : o ≤ o') (hc : c' ≤ c) :
    Untouched ts d o' c' :=
  fun k hk hk' => h k (Nat.le_trans ho hk) (Nat.le_trans hk' hc)

theorem untouched_self (ts : List Token) (o c : Nat) : Untouched ts (ts.map some) o c :=
  fun _ _ _ => List.getElem?_map

/-- A group with a half left is left whole. -/
theorem Offers.untouched_of_half (h : Offers 0 d cs) (hpruned : Pruned (ts.map some) d)
    (hmates : Mates ts o c) (hhalf : d.Holds o ∨ d.Holds c) : Untouched ts d o c := by
  rcases hhalf with ⟨token, hk⟩ | ⟨token, hk⟩
  · obtain ⟨kind, p, hget⟩ := hmates.opening_get
    obtain rfl := Option.some.inj ((hpruned.holds_eq hk).symm.trans hget)
    obtain ⟨o', c', hmates', hle, hge, huntouched⟩ := h.exists_untouched hpruned hk rfl
    exact huntouched.mono hle (hmates'.closing_le hmates hle hge)
  · obtain ⟨kind, q, hget⟩ := hmates.closing_get
    obtain rfl := Option.some.inj ((hpruned.holds_eq hk).symm.trans hget)
    obtain ⟨o', c', hmates', hle, hge, huntouched⟩ := h.exists_untouched hpruned hk rfl
    refine huntouched.mono ?_ hge
    -- A group that opened before the whole one would close with it.
    by_cases hlt : o < o'
    · have hclosing : c' = c := Nat.le_antisymm (hmates.closing_le hmates' (by omega) hle) hge
      exact Nat.le_of_eq (hmates'.opening_unique (hclosing ▸ hmates))
    · omega

/-- The innermost group around a bar that is left is left whole. -/
theorem Offers.untouched_of_bar {start next : Option Nat} (h : Offers 0 d cs)
    (hpruned : Pruned (ts.map some) d) (hk : d[k]? = some (some (.bar start next)))
    (hinner : Innermost ts o c k) : Untouched ts d o c := by
  obtain ⟨o', c', hmates, hle, hge, huntouched⟩ := h.exists_untouched hpruned hk rfl
  have hbar := hpruned.holds_eq hk
  have hopens : o' < k := by
    refine Nat.lt_of_le_of_ne hle ?_
    rintro rfl
    obtain ⟨kind, p, hget⟩ := hmates.opening_get
    cases hbar.symm.trans hget
  have hcloses : k < c' := by
    refine Nat.lt_of_le_of_ne hge ?_
    rintro rfl
    exact hmates.not_bar ⟨start, next, hbar⟩
  obtain ⟨ho, hc⟩ := hinner.inside o' c' hmates hopens hcloses
  exact huntouched.mono ho hc

end Whole

/-! ## Safe drafts -/

/-- What a step relies on, and what it comes to. -/
structure Safe (ts : List Token) (d : Draft) : Prop where
  /-- A group with a half left is left whole. -/
  half : ∀ o c, Mates ts o c → d.Holds o ∨ d.Holds c → Untouched ts d o c
  /-- So is the innermost group around a bar that is left. -/
  bar : ∀ (k : Nat) (start next : Option Nat), d[k]? = some (some (.bar start next)) →
    ∀ o c, Innermost ts o c k → Untouched ts d o c
  /-- Without a bar outside all groups, the first structural token opens a group. -/
  first : d.chainHead? none = none → ∀ token i, d.firstMark? = some (token, i) →
    ∃ kind c, token = .opening kind (some c) ∧ Mates ts i c
  /-- The step is in range, and each draft that it pushes has fewer structural tokens. -/
  step : ∃ drafts?, d.pushes = .ok drafts? ∧
    ∀ drafts ∈ drafts?, ∀ c ∈ drafts, c.marks < d.marks

theorem Sound.marks_lt {d : Draft} (h : d.Sound) : ∃ drafts?, d.pushes = .ok drafts? ∧
    ∀ drafts ∈ drafts?, ∀ c ∈ drafts, c.marks < d.marks := by
  obtain ⟨drafts?, hpushes, houtcome⟩ := h
  refine ⟨drafts?, hpushes, fun drafts hdrafts c hc => ?_⟩
  obtain rfl : drafts? = some drafts := hdrafts
  exact marks_lt_of_mem_choices houtcome hc

/-- The first structural token of a draft that offers choices opens a group. -/
theorem Offers.opening_of_firstMark? {d : Draft} {cs : List (List Token)} (h : Offers 0 d cs)
    {token : Token} {i : Nat} (hfirst : d.firstMark? = some (token, i)) :
    ∃ kind pair, token = .opening kind pair := by
  rcases h.first_group with ⟨hd, -⟩ | ⟨left, right, kind, inner, _, _, rfl, hleft, -, -, -⟩
  · cases (firstMark?_of_markless hd).symm.trans hfirst
  · rw [groupSlots_eq] at hfirst
    have hopening := (firstMark?_append hleft _ rfl _).symm.trans hfirst
    exact ⟨kind, _, (Prod.mk.inj (Option.some.inj hopening)).1.symm⟩

theorem Offers.safe {ts : List Token} {d : Draft} {cs : List (List Token)} (h : Offers 0 d cs)
    (hpruned : Pruned (ts.map some) d) (hlinks : RightLinks ts) : Safe ts d where
  half _ _ hmates hhalf := h.untouched_of_half hpruned hmates hhalf
  bar _ _ _ hk _ _ hinner := h.untouched_of_bar hpruned hk hinner
  first := by
    intro _ token i hfirst
    obtain ⟨kind, pair, rfl⟩ := h.opening_of_firstMark? hfirst
    obtain ⟨hsome, hpair⟩ := hlinks i _ (hpruned.holds_eq (firstMark?_eq_some hfirst).1)
    obtain ⟨c, rfl⟩ := Option.isSome_iff_exists.1 hsome
    exact ⟨kind, c, rfl, (hpair c).1 rfl⟩
  step := h.sound.marks_lt

/-- A balanced grammar is safe, from which nothing has been removed yet. -/
theorem safe_linked (tree : Alternation) :
    Safe (tree.linked none none 0) ((tree.linked none none 0).map some) := by
  cases tree with
  | one s => exact (offers_linked s 0).safe (Pruned.refl _) (rightLinks_linked (.one s))
  | cons s rest =>
    obtain ⟨next, hhead, -⟩ := chain_linked none none s rest [] [] (by simp [Barless]) (by simp)
      (by simp [Stops])
    simp only [List.nil_append, List.append_nil, List.length_nil] at hhead
    exact {
      half := fun o c _ _ => untouched_self _ o c
      bar := fun _ _ _ _ o c _ => untouched_self _ o c
      first := fun hnone => by cases hnone.symm.trans hhead
      step := (sound_linked (.cons s rest)).marks_lt }

/-! ## The drafts of an expansion -/

/-- A draft that the expansion of the tokens `ts` can come to. -/
structure Item (ts : List Token) (d : Draft) : Prop where
  pruned : Pruned (ts.map some) d
  whole_or_offers : d = ts.map some ∨ ∃ cs, Offers 0 d cs

theorem OffersEach.exists_offers {position : Nat} {drafts : List Draft}
    {cs : List (List Token)} (h : OffersEach position drafts cs) {e : Draft}
    (he : e ∈ drafts) : ∃ cs', Offers position e cs' := by
  induction h with
  | nil => cases he
  | cons h _ ih =>
    rcases List.mem_cons.1 he with rfl | he
    · exact ⟨_, h⟩
    · exact ih he

/-- The drafts of a decision offer the choices that were there before it. -/
theorem Offers.each {d : Draft} {cs : List (List Token)} (h : Offers 0 d cs)
    {drafts : List Draft} (hchoices : d.outcome = .choices drafts) : OffersEach 0 drafts cs := by
  rcases exists_choices h with ⟨hfinished, -⟩ | ⟨drafts', hchoices', heach⟩
  · cases hfinished.symm.trans hchoices
  · obtain rfl := Outcome.choices.inj (hchoices'.symm.trans hchoices)
    exact heach

theorem each_linked (tree : Alternation) {drafts : List Draft}
    (hchoices : outcome ((tree.linked none none 0).map some) = .choices drafts) :
    OffersEach 0 drafts tree.choices := by
  rcases exists_choices_linked tree rfl with hoffers | ⟨drafts', hchoices', heach⟩
  · exact hoffers.each hchoices
  · obtain rfl := Outcome.choices.inj (hchoices'.symm.trans hchoices)
    exact heach

namespace Item

variable {tree : Alternation} {d : Draft}

theorem start (ts : List Token) : Item ts (ts.map some) :=
  ⟨Pruned.refl _, Or.inl rfl⟩

theorem safe (h : Item (tree.linked none none 0) d) : Safe (tree.linked none none 0) d := by
  rcases h.whole_or_offers with rfl | ⟨cs, hoffers⟩
  · exact safe_linked tree
  · exact hoffers.safe h.pruned (rightLinks_linked tree)

theorem sound (h : Item (tree.linked none none 0) d) : d.Sound := by
  rcases h.whole_or_offers with rfl | ⟨cs, hoffers⟩
  · exact sound_linked tree
  · exact hoffers.sound

/-- A decision leads from items to items. -/
theorem of_choices (h : Item (tree.linked none none 0) d) {drafts : List Draft} {e : Draft}
    (hchoices : d.outcome = .choices drafts) (he : e ∈ drafts) :
    Item (tree.linked none none 0) e := by
  refine ⟨h.pruned.trans (Pruned.of_choices hchoices he), Or.inr ?_⟩
  rcases h.whole_or_offers with rfl | ⟨cs, hoffers⟩
  · exact (each_linked tree hchoices).exists_offers he
  · exact (hoffers.each hchoices).exists_offers he

end Item

end Draft

end Synopsis
