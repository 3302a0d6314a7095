import Synopsis.Proofs.Choices
import Synopsis.Proofs.Linked

/-!
# The decisions of a draft

A draft is what is left of a linked grammar after some decisions.  `Offers p d cs`
says that `d`, from position `p` on, has no open alternation outside its groups,
that the groups left in it are whole, and that `cs` are the choices it allows.

`exists_choices` is the simulation step.  A draft that offers choices and holds
a structural token has a first decision, and the drafts that the decision leads
to offer the same choices, split in their order.  A draft without structural
tokens offers one choice, the tokens left in it.

The groups inside a group are never touched before it is decided, so a group is
described by its tree (`groupSlots`) and not by a relation of its own.
-/

namespace Synopsis

namespace Draft

/-! ## Slots of a region -/

theorem clear_append (left middle right : Draft) :
    clear (left ++ (middle ++ right)) left.length (left.length + middle.length) =
      left ++ (List.replicate middle.length none ++ right) := by
  refine List.ext_getElem? fun i => ?_
  simp only [clear, List.getElem?_mapIdx, List.getElem?_append, List.length_replicate,
    List.getElem?_replicate]
  by_cases hl : i < left.length
  · have hle : ¬ left.length ≤ i := by omega
    simp [hl, hle]
  · by_cases hm : i - left.length < middle.length
    · have hle : left.length ≤ i := by omega
      have hlt : i < left.length + middle.length := by omega
      simp [hl, hm, hle, hlt]
    · have hge : ¬ i < left.length + middle.length := by omega
      simp [hl, hm, hge]

theorem clear_self (d : Draft) (i : Nat) : clear d i i = d := by
  refine List.ext_getElem? fun j => ?_
  have h : ¬ (i ≤ j ∧ j < i) := by omega
  simp only [clear, List.getElem?_mapIdx, h, if_false, Option.map_id_fun', id]

@[simp] theorem withoutBars_append (left right : Draft) (start : Option Nat) :
    withoutBars (left ++ right) start = left.withoutBars start ++ right.withoutBars start := by
  simp [withoutBars]

/-- No slot holds a bar of the alternation that starts at `start`. -/
def Barless (start : Option Nat) (d : Draft) : Prop :=
  ∀ slot ∈ d, isBarOf start slot = false

theorem Barless.append {start : Option Nat} {left right : Draft}
    (hl : left.Barless start) (hr : right.Barless start) :
    Barless start (left ++ right) := by
  intro slot hslot
  rcases List.mem_append.1 hslot with h | h
  · exact hl slot h
  · exact hr slot h

theorem withoutBars_of_barless {d : Draft} {start : Option Nat}
    (h : d.Barless start) : d.withoutBars start = d := by
  unfold withoutBars
  refine (List.map_congr_left (g := id) fun slot hslot => ?_).trans (List.map_id d)
  simp [h slot hslot]

/-- The positions of the bars of one alternation in slots that stand from
`position` on. -/
def barsFrom (position : Nat) (d : Draft) (start : Option Nat) : List Nat :=
  ((d.zipIdx position).filter fun (slot, _) => isBarOf start slot).map (·.2)

theorem barsFrom_append (position : Nat) (left right : Draft) (start : Option Nat) :
    barsFrom position (left ++ right) start =
      barsFrom position left start ++ barsFrom (position + left.length) right start := by
  simp [barsFrom, List.zipIdx_append]

theorem barsFrom_of_barless {d : Draft} {start : Option Nat} (h : d.Barless start)
    (position : Nat) : barsFrom position d start = [] := by
  rw [barsFrom, List.map_eq_nil_iff, List.filter_eq_nil_iff]
  intro x hx
  have hmem : x.1 ∈ d := by
    obtain ⟨_, _, hget⟩ := List.mem_zipIdx hx
    exact hget ▸ List.getElem_mem _
  simp [h x.1 hmem]

theorem barsFrom_bar (position : Nat) (start next : Option Nat) (d : Draft) :
    barsFrom position (some (.bar start next) :: d) start =
      position :: barsFrom (position + 1) d start := by
  simp [barsFrom, isBarOf]

theorem spans_nil (first stop : Nat) : spans first stop [] = [(first, stop)] := rfl

theorem spans_cons (first stop bar : Nat) (bars : List Nat) :
    spans first stop (bar :: bars) = (first, bar) :: spans (bar + 1) stop bars := rfl

end Draft

/-! ## Where the bars of a tree start -/

mutual

/-- A bar of an alternation starts where the alternation does, or inside it. -/
theorem Alternation.start_of_bar (start stop : Option Nat) (s : Option Nat) :
    ∀ (position : Nat) (tree : Alternation) (token : Token),
      token ∈ tree.linked start stop position → Draft.isBarOf s (some token) = true →
      s = start ∨ ∃ x, s = some x ∧ position ≤ x
  | position, .one sequence, token, hmem, hbar => by
    rw [Alternation.linked] at hmem
    exact Or.inr (sequence.start_of_bar s position token hmem hbar)
  | position, .cons sequence rest, token, hmem, hbar => by
    simp only [Alternation.linked, List.mem_append, List.mem_cons] at hmem
    rcases hmem with hmem | rfl | hmem
    · exact Or.inr (sequence.start_of_bar s position token hmem hbar)
    · left
      simpa [Draft.isBarOf] using (beq_iff_eq.1 hbar).symm
    · rcases rest.start_of_bar start stop s _ token hmem hbar with h | ⟨x, hx, hle⟩
      · exact Or.inl h
      · exact Or.inr ⟨x, hx, by omega⟩

/-- A bar in a sequence stands in a group of the sequence. -/
theorem Sequence.start_of_bar (s : Option Nat) :
    ∀ (position : Nat) (tree : Sequence) (token : Token),
      token ∈ tree.linked position → Draft.isBarOf s (some token) = true →
      ∃ x, s = some x ∧ position ≤ x
  | _, .nil, token, hmem, _ => by
    simp [Sequence.linked] at hmem
  | position, .token t rest, token, hmem, hbar => by
    rw [Sequence.linked, List.mem_cons] at hmem
    rcases hmem with rfl | hmem
    · obtain ⟨t, ht⟩ := t
      cases t <;> cases ht <;> cases hbar
    · obtain ⟨x, hx, hle⟩ := rest.start_of_bar s (position + 1) token hmem hbar
      exact ⟨x, hx, by omega⟩
  | position, .group kind inner rest, token, hmem, hbar => by
    simp only [Sequence.linked, List.mem_cons, List.mem_append] at hmem
    rcases hmem with rfl | hmem | rfl | hmem
    · cases hbar
    · rcases inner.start_of_bar _ _ s _ token hmem hbar with h | ⟨x, hx, hle⟩
      · exact ⟨position, h, Nat.le_refl _⟩
      · exact ⟨x, hx, by omega⟩
    · cases hbar
    · obtain ⟨x, hx, hle⟩ := rest.start_of_bar s _ token hmem hbar
      exact ⟨x, hx, by omega⟩

end

/-- An alternation does not start inside one of its sequences. -/
theorem Sequence.barless_linked {start : Option Nat} {position : Nat}
    (h : ∀ x, start = some x → x < position) (tree : Sequence) :
    Draft.Barless start ((tree.linked position).map some) := by
  intro slot hslot
  obtain ⟨token, hmem, rfl⟩ := List.mem_map.1 hslot
  cases hbar : Draft.isBarOf start (some token) with
  | false => rfl
  | true =>
    obtain ⟨x, hx, hle⟩ := tree.start_of_bar start position token hmem hbar
    exact absurd (h x hx) (by omega)

/-! ## The alternatives of a region -/

/-- The positions of the bars of an alternation. -/
def Alternation.barPositions (position : Nat) : Alternation → List Nat
  | .one _ => []
  | .cons s rest =>
    (position + s.width) :: rest.barPositions (position + s.width + 1)

/-- The slots of an alternation, once for each of its sequences, with only that
sequence left. -/
def Alternation.drafts (position : Nat) : Alternation → List Draft
  | .one s => [(s.linked position).map some]
  | .cons s rest =>
    ((s.linked position).map some ++ List.replicate (rest.width + 1) none) ::
      (rest.drafts (position + s.width + 1)).map (List.replicate (s.width + 1) none ++ ·)

section Region

variable (start stop : Option Nat)

theorem Alternation.barsFrom_linked : ∀ (tree : Alternation) (position : Nat),
    (∀ x, start = some x → x < position) →
      Draft.barsFrom position ((tree.linked start stop position).map some) start =
        tree.barPositions position
  | .one s, position, h => by
    rw [linked, barPositions]
    exact Draft.barsFrom_of_barless (s.barless_linked h) position
  | .cons s rest, position, h => by
    have hrest := barsFrom_linked rest (position + s.width + 1)
      (fun x hx => by have := h x hx; omega)
    rw [linked, barPositions, List.map_append, Draft.barsFrom_append,
      Draft.barsFrom_of_barless (s.barless_linked h), List.map_cons, Draft.barsFrom_bar,
      List.length_map, Sequence.length_linked, hrest, List.nil_append]

/-- The spans of an alternation single out its sequences.  `passed` are the slots
of the region before the tree. -/
theorem Alternation.map_spans : ∀ (tree : Alternation) (before passed after : Draft)
    (position : Nat), position = before.length + passed.length →
    (∀ x, start = some x → x < position) →
    (Draft.spans position (position + tree.width) (tree.barPositions position)).map
        (fun (left, right) =>
          Draft.clear (Draft.clear (before ++ (passed ++
            (Draft.withoutBars ((tree.linked start stop position).map some) start ++ after)))
              before.length left) right (position + tree.width)) =
      (tree.drafts position).map fun region =>
        before ++ (List.replicate passed.length none ++ (region ++ after))
  | .one s, before, passed, after, position, hpos, hstart => by
    have hclear := Draft.clear_append before passed
      ((s.linked position).map some ++ after)
    rw [← hpos] at hclear
    simp only [barPositions, drafts, Draft.spans_nil, linked, List.map_cons, List.map_nil,
      Draft.withoutBars_of_barless (s.barless_linked hstart), hclear, Draft.clear_self]
  | .cons s rest, before, passed, after, position, hpos, hstart => by
    have hbar : Draft.withoutBars ((Alternation.linked start stop position (.cons s rest)).map
        some) start = (s.linked position).map some ++ (none :: Draft.withoutBars
          ((rest.linked start stop (position + s.width + 1)).map some) start) := by
      rw [linked, List.map_append, Draft.withoutBars_append,
        Draft.withoutBars_of_barless (s.barless_linked hstart)]
      simp [Draft.withoutBars, Draft.isBarOf]
    have hstop : position + (s.width + 1 + rest.width) =
        position + s.width + 1 + rest.width := by omega
    -- The span of the first sequence keeps that sequence only.
    have hclear := Draft.clear_append before passed
      ((s.linked position).map some ++ (none :: Draft.withoutBars
        ((rest.linked start stop (position + s.width + 1)).map some) start ++ after))
    have hclear' := Draft.clear_append
      (before ++ (List.replicate passed.length none ++ (s.linked position).map some))
      (none :: Draft.withoutBars
        ((rest.linked start stop (position + s.width + 1)).map some) start) after
    have hlen : (before ++ (List.replicate passed.length none ++
        (s.linked position).map some)).length = position + s.width := by
      simp only [List.length_append, List.length_replicate, List.length_map,
        Sequence.length_linked]
      omega
    have hlen' : (none :: Draft.withoutBars
        ((rest.linked start stop (position + s.width + 1)).map some) start).length =
          rest.width + 1 := by
      simp [Draft.withoutBars]
    rw [← hpos] at hclear
    have hlast : position + s.width + (rest.width + 1) =
        position + s.width + 1 + rest.width := by omega
    rw [hlen, hlen', hlast] at hclear'
    -- The others are those of the region behind the first bar.
    have hrest := map_spans rest before
      (passed ++ ((s.linked position).map some ++ [none])) after
      (position + s.width + 1) (by simp; omega)
      (fun x hx => by have := hstart x hx; omega)
    have hpassed : (passed ++ ((s.linked position).map some ++ [none])).length =
        passed.length + (s.width + 1) := by
      simp
    rw [hpassed] at hrest
    simp only [List.append_assoc, List.cons_append, List.nil_append] at hclear hclear' hrest
    simp only [barPositions, drafts, Draft.spans_cons, List.map_cons, width_cons, hstop,
      hbar, List.append_assoc, List.cons_append, List.map_map, Function.comp_def]
    rw [hclear, hclear', hrest]
    simp only [← List.replicate_append_replicate, List.append_assoc]

end Region

namespace Draft

/-- The bars of an alternation that fills a region are those of its tree. -/
theorem bars_region (start stop : Option Nat) (tree : Alternation) {before after : Draft}
    (hbefore : before.Barless start) (hafter : after.Barless start)
    (h : ∀ x, start = some x → x < before.length) :
    bars (before ++ ((tree.linked start stop before.length).map some ++ after)) start =
      tree.barPositions before.length := by
  show barsFrom 0 _ start = _
  rw [barsFrom_append, barsFrom_append, barsFrom_of_barless hbefore,
    barsFrom_of_barless hafter, Nat.zero_add,
    Alternation.barsFrom_linked start stop tree before.length h, List.nil_append,
    List.append_nil]

/-- The alternatives of a whole region, one for each sequence. -/
theorem alternatives_region (start stop : Option Nat) (tree : Alternation)
    {before after : Draft} (hbefore : before.Barless start)
    (hafter : after.Barless start) (h : ∀ x, start = some x → x < before.length) :
    alternatives (before ++ ((tree.linked start stop before.length).map some ++ after))
        start before.length (before.length + tree.width) =
      (tree.drafts before.length).map fun region => before ++ (region ++ after) := by
  have hbars := bars_region start stop tree hbefore hafter h
  have hspans := Alternation.map_spans start stop tree before [] after before.length
    (by simp) h
  rw [alternatives, hbars, withoutBars_append, withoutBars_append,
    withoutBars_of_barless hbefore, withoutBars_of_barless hafter]
  simpa using hspans

/-! ## What a draft offers -/

/-- The slots of a group that opens at `position`. -/
def groupSlots (position : Nat) (kind : GroupKind) (inner : Alternation) : Draft :=
  ((Sequence.group kind inner .nil).linked position).map some

@[simp] theorem length_groupSlots (position : Nat) (kind : GroupKind)
    (inner : Alternation) : (groupSlots position kind inner).length = inner.width + 2 := by
  simp [groupSlots]

theorem map_linked_group (position : Nat) (kind : GroupKind) (inner : Alternation)
    (rest : Sequence) :
    ((Sequence.group kind inner rest).linked position).map some =
      groupSlots position kind inner ++
        (rest.linked (position + (inner.width + 2))).map some := by
  have hbehind : position + 1 + inner.width + 1 = position + (inner.width + 2) := by omega
  simp [groupSlots, Sequence.linked, hbehind]

/-- The draft with an ellipsis at its start taken out. -/
def dropEllipsis : Draft → Draft
  | some .ellipsis :: d => none :: d
  | d => d

@[simp] theorem length_dropEllipsis (d : Draft) : d.dropEllipsis.length = d.length := by
  unfold dropEllipsis
  split <;> simp

/-- From `position` on the draft has no open alternation outside its groups, its
groups are whole, and it allows the choices `cs`. -/
inductive Offers : Nat → Draft → List (List Token) → Prop
  | nil (position : Nat) : Offers position [] [[]]
  | gap {position : Nat} {d : Draft} {cs : List (List Token)}
      (h : Offers (position + 1) d cs) : Offers position (none :: d) cs
  | token {position : Nat} {d : Draft} {cs : List (List Token)} (t : PlainToken)
      (h : Offers (position + 1) d cs) :
      Offers position (some t.1 :: d) (cs.map (t.1 :: ·))
  | group {position : Nat} {d : Draft} {cs cs' : List (List Token)} (kind : GroupKind)
      (inner : Alternation) (hin : Offers (position + (inner.width + 2)) d cs)
      (hout : Offers (position + (inner.width + 2)) d.dropEllipsis cs') :
      Offers position (groupSlots position kind inner ++ d)
        (kind.omissions cs' ++ products inner.choices cs)

/-- The linked tokens of a sequence offer the choices of the sequence. -/
theorem offers_linked : ∀ (tree : Sequence) (position : Nat),
    Offers position ((tree.linked position).map some) tree.choices
  | .nil, position => by
    simp only [Sequence.linked, Sequence.choices, List.map_nil]
    exact .nil position
  | .token t rest, position => by
    have h := Offers.token t (offers_linked rest (position + 1))
    rw [Sequence.linked, Sequence.choices, products_singleton]
    exact h
  | .group kind inner rest, position => by
    rw [map_linked_group, Sequence.choices_group]
    refine .group kind inner (offers_linked rest _) ?_
    -- The ellipsis behind a group is the same in the tree and in the slots.
    rcases rest.ellipsis_or_not with ⟨rest, rfl⟩ | ⟨hdrop, hne⟩
    · have h := Offers.gap (offers_linked rest (position + (inner.width + 2) + 1))
      rw [Sequence.linked]
      exact h
    · have hsame : dropEllipsis ((rest.linked (position + (inner.width + 2))).map some) =
          (rest.linked (position + (inner.width + 2))).map some := by
        cases rest with
        | nil => simp [Sequence.linked, dropEllipsis]
        | group kind' inner' rest' => simp [Sequence.linked, dropEllipsis]
        | token t rest =>
          rw [Sequence.linked, List.map_cons, dropEllipsis]
          intro d heq
          obtain ⟨htoken, -⟩ := List.cons.inj heq
          refine hne rest ?_
          rw [show t = PlainToken.ellipsis from Subtype.ext (Option.some.inj htoken)]
      rw [hsame, hdrop]
      exact offers_linked rest _

theorem dropEllipsis_append_gap (d e : Draft) :
    dropEllipsis (d ++ none :: e) = d.dropEllipsis ++ none :: e := by
  cases d with
  | nil => rfl
  | cons slot d =>
    by_cases h : slot = some .ellipsis
    · subst h
      rfl
    · have hne : ∀ rest, slot :: rest ≠ some Token.ellipsis :: rest := by
        intro rest heq
        exact h (List.cons.inj heq).1
      rw [List.cons_append, dropEllipsis, dropEllipsis]
      · rfl
      · intro _ heq
        exact h (List.cons.inj heq).1
      · intro _ heq
        exact h (List.cons.inj heq).1

theorem omissions_products (kind : GroupKind) (cs ds : List (List Token)) :
    products (kind.omissions cs) ds = kind.omissions (products cs ds) := by
  cases kind <;> rfl

theorem Offers.cast {p q : Nat} {d : Draft} {cs : List (List Token)}
    (h : Offers p d cs) (hpq : p = q) : Offers q d cs :=
  hpq ▸ h

/-- Two drafts with an empty slot between them offer the products of their
choices.  The slot keeps an ellipsis at the start of the second one away from a
group at the end of the first. -/
theorem Offers.append_gap {position : Nat} {d e : Draft} {cs es : List (List Token)}
    (hd : Offers position d cs) (he : Offers (position + d.length + 1) e es) :
    Offers position (d ++ none :: e) (products cs es) := by
  induction hd with
  | nil position =>
    rw [products_empty]
    exact .gap he
  | gap _ ih =>
    exact .gap (ih (he.cast (by simp; omega)))
  | @token position d cs t _ ih =>
    have h := ih (he.cast (by simp; omega))
    rw [show cs.map (t.1 :: ·) = cs.map ([t.1] ++ ·) from rfl, ← map_products]
    exact .token t h
  | @group position d cs cs' kind inner _ _ ihin ihout =>
    rw [List.append_assoc, products_append, omissions_products, products_assoc]
    refine .group kind inner (ihin (he.cast (by simp; omega))) ?_
    rw [dropEllipsis_append_gap]
    exact ihout (he.cast (by simp; omega))

/-- No structural token is left. -/
def Markless (d : Draft) : Prop :=
  ∀ slot ∈ d, isMark slot = false

theorem Markless.barless {d : Draft} (h : d.Markless) (start : Option Nat) :
    d.Barless start := by
  intro slot hslot
  cases hbar : isBarOf start slot with
  | false => rfl
  | true => exact absurd (isMark_of_isBarOf hbar) (by simp [h slot hslot])

theorem markless_cons {slot : Option Token} {d : Draft} :
    Markless (slot :: d) ↔ isMark slot = false ∧ d.Markless := by
  simp [Markless]

/-- Slots without structural tokens add their tokens to each choice. -/
theorem Offers.markless_append {position : Nat} {left d : Draft}
    {cs : List (List Token)} (hleft : left.Markless)
    (h : Offers (position + left.length) d cs) :
    Offers position (left ++ d) (cs.map (left.filterMap id ++ ·)) := by
  induction left generalizing position with
  | nil => simpa using h
  | cons slot left ih =>
    obtain ⟨hslot, hleft⟩ := markless_cons.1 hleft
    have hd := ih hleft (h.cast (by simp; omega) : Offers (position + 1 + left.length) d cs)
    cases slot with
    | none => simpa using Offers.gap hd
    | some token =>
      have hd := Offers.token ⟨token, hslot⟩ hd
      simpa [List.map_map, Function.comp_def] using hd

/-- A draft without structural tokens offers one choice; any other draft has a
first group, with nothing to decide before it. -/
theorem Offers.first_group {position : Nat} {d : Draft} {cs : List (List Token)}
    (h : Offers position d cs) :
    d.Markless ∧ cs = [d.filterMap id] ∨
      ∃ (left right : Draft) (kind : GroupKind) (inner : Alternation)
        (rs rs' : List (List Token)),
        d = left ++ (groupSlots (position + left.length) kind inner ++ right) ∧
        left.Markless ∧
        Offers (position + left.length + (inner.width + 2)) right rs ∧
        Offers (position + left.length + (inner.width + 2)) right.dropEllipsis rs' ∧
        cs = (kind.omissions rs' ++ products inner.choices rs).map
          (left.filterMap id ++ ·) := by
  induction h with
  | nil position => exact Or.inl ⟨by simp [Markless], rfl⟩
  | @gap position d cs _ ih =>
    rcases ih with ⟨hd, hcs⟩ | ⟨left, right, kind, inner, rs, rs', hd, hl, hin, hout, hcs⟩
    · exact Or.inl ⟨markless_cons.2 ⟨rfl, hd⟩, by simpa using hcs⟩
    · have hlen : position + (none :: left : Draft).length = position + 1 + left.length := by
        simp only [List.length_cons]
        omega
      refine Or.inr ⟨none :: left, right, kind, inner, rs, rs', ?_, ?_, ?_, ?_, ?_⟩
      · rw [hlen, hd, List.cons_append]
      · exact markless_cons.2 ⟨rfl, hl⟩
      · exact hlen ▸ hin
      · exact hlen ▸ hout
      · simpa using hcs
  | @token position d cs t _ ih =>
    rcases ih with ⟨hd, hcs⟩ | ⟨left, right, kind, inner, rs, rs', hd, hl, hin, hout, hcs⟩
    · refine Or.inl ⟨markless_cons.2 ⟨t.2, hd⟩, ?_⟩
      simp [hcs]
    · have hlen : position + (some t.1 :: left : Draft).length =
          position + 1 + left.length := by
        simp only [List.length_cons]
        omega
      refine Or.inr ⟨some t.1 :: left, right, kind, inner, rs, rs', ?_, ?_, ?_, ?_, ?_⟩
      · rw [hlen, hd, List.cons_append]
      · exact markless_cons.2 ⟨t.2, hl⟩
      · exact hlen ▸ hin
      · exact hlen ▸ hout
      · rw [hcs]
        simp [Function.comp_def]
  | @group position d cs cs' kind inner hin hout _ _ =>
    refine Or.inr ⟨[], d, kind, inner, cs, cs', rfl, by simp [Markless], hin, hout, ?_⟩
    simp

/-- A bar that is left stands in a group that is left. -/
theorem Offers.start_of_bar {position : Nat} {d : Draft} {cs : List (List Token)}
    (h : Offers position d cs) {start : Option Nat} {slot : Option Token}
    (hslot : slot ∈ d) (hbar : isBarOf start slot = true) :
    ∃ x, start = some x ∧ position ≤ x := by
  induction h with
  | nil => simp at hslot
  | gap _ ih =>
    rcases List.mem_cons.1 hslot with rfl | hslot
    · cases hbar
    · obtain ⟨x, hx, hle⟩ := ih hslot
      exact ⟨x, hx, by omega⟩
  | token t _ ih =>
    rcases List.mem_cons.1 hslot with rfl | hslot
    · exact absurd (isMark_of_isBarOf hbar) (by simp [isMark, t.2])
    · obtain ⟨x, hx, hle⟩ := ih hslot
      exact ⟨x, hx, by omega⟩
  | group kind inner _ _ ih _ =>
    rcases List.mem_append.1 hslot with hslot | hslot
    · obtain ⟨token, hmem, rfl⟩ := List.mem_map.1 hslot
      exact Sequence.start_of_bar start _ _ token hmem hbar
    · obtain ⟨x, hx, hle⟩ := ih hslot
      exact ⟨x, hx, by omega⟩

theorem Offers.barless {position : Nat} {d : Draft} {cs : List (List Token)}
    (h : Offers position d cs) {start : Option Nat}
    (hstart : ∀ x, start = some x → x < position) : d.Barless start := by
  intro slot hslot
  cases hbar : isBarOf start slot with
  | false => rfl
  | true =>
    obtain ⟨x, hx, hle⟩ := h.start_of_bar hslot hbar
    exact absurd (hstart x hx) (by omega)

/-! ## The first decision -/

theorem firstMark?_of_markless {d : Draft} (h : d.Markless) : d.firstMark? = none := by
  refine List.findSome?_eq_none_iff.2 ?_
  rintro ⟨slot, i⟩ hmem
  obtain ⟨_, _, hget⟩ := List.mem_zipIdx hmem
  have hslot : isMark slot = false := h slot (hget ▸ List.getElem_mem _)
  cases slot with
  | none => rfl
  | some token =>
    have : token.isStructural = false := hslot
    simp [this]

theorem firstMark?_append {left : Draft} (hleft : left.Markless) (token : Token)
    (htoken : token.isStructural = true) (right : Draft) :
    firstMark? (left ++ some token :: right) = some (token, left.length) := by
  have hnone := firstMark?_of_markless hleft
  rw [firstMark?] at hnone ⊢
  rw [List.zipIdx_append, List.findSome?_append, hnone]
  simp [htoken]

/-- A draft without structural tokens is finished. -/
theorem outcome_of_markless {d : Draft} (h : d.Markless) : d.outcome = .finished := by
  have hbars : d.bars none = [] := barsFrom_of_barless (h.barless none) 0
  rw [outcome, hbars, firstMark?_of_markless h]
  rfl

/-- Several drafts, and the choices of each in their order. -/
inductive OffersEach (position : Nat) : List Draft → List (List Token) → Prop
  | nil : OffersEach position [] []
  | cons {d : Draft} {drafts : List Draft} {cs later : List (List Token)}
      (h : Offers position d cs) (hlater : OffersEach position drafts later) :
      OffersEach position (d :: drafts) (cs ++ later)

theorem OffersEach.append {position : Nat} {drafts drafts' : List Draft}
    {cs cs' : List (List Token)} (h : OffersEach position drafts cs)
    (h' : OffersEach position drafts' cs') :
    OffersEach position (drafts ++ drafts') (cs ++ cs') := by
  induction h with
  | nil => exact h'
  | cons h _ ih =>
    rw [List.append_assoc]
    exact .cons h ih

/-- A change to each draft that changes what it offers, draft by draft. -/
theorem OffersEach.map {p q : Nat} {f : Draft → Draft}
    {g : List (List Token) → List (List Token)} (hnil : g [] = [])
    (happend : ∀ xs ys, g (xs ++ ys) = g xs ++ g ys)
    {drafts : List Draft} {cs : List (List Token)} (h : OffersEach p drafts cs)
    (hf : ∀ d ∈ drafts, ∀ cs, Offers p d cs → Offers q (f d) (g cs)) :
    OffersEach q (drafts.map f) (g cs) := by
  induction h with
  | nil =>
    rw [hnil]
    exact .nil
  | cons h _ ih =>
    rw [happend]
    refine .cons (hf _ (by simp) _ h) (ih fun d hd => hf d (by simp [hd]))

theorem markless_replicate (n : Nat) : Markless (List.replicate n none) := by
  intro slot hslot
  rw [List.eq_of_mem_replicate hslot]
  rfl

theorem Offers.gaps {position n : Nat} {d : Draft} {cs : List (List Token)}
    (h : Offers (position + n) d cs) : Offers position (List.replicate n none ++ d) cs := by
  have hd := Offers.markless_append (markless_replicate n)
    (h.cast (q := position + (List.replicate n (none : Option Token)).length) (by simp))
  have hempty : (List.replicate n (none : Option Token)).filterMap id = [] := by simp
  rw [hempty] at hd
  simpa using hd

theorem Offers.append_gaps {position : Nat} (n : Nat) {d : Draft} {cs : List (List Token)}
    (h : Offers position d cs) :
    Offers position (d ++ List.replicate (n + 1) none) cs := by
  have hgaps : Offers (position + d.length + 1) (List.replicate n none ++ []) [[]] :=
    Offers.gaps (.nil _)
  have hd := h.append_gap hgaps
  have hempty : products cs [[]] = cs := by simp [products]
  rw [hempty, List.append_nil] at hd
  exact hd

end Draft

theorem Alternation.length_of_mem_drafts : ∀ (tree : Alternation) (position : Nat),
    ∀ d ∈ tree.drafts position, d.length = tree.width
  | .one s, position, d, hd => by
    obtain rfl : d = (s.linked position).map some := by simpa [drafts] using hd
    simp
  | .cons s rest, position, d, hd => by
    rcases List.mem_cons.1 hd with rfl | hd
    · simp only [List.length_append, List.length_map, Sequence.length_linked,
        List.length_replicate, width_cons]
      omega
    · obtain ⟨region, hregion, rfl⟩ := List.mem_map.1 hd
      have hlen := rest.length_of_mem_drafts _ region hregion
      simp only [List.length_append, List.length_replicate, hlen, width_cons]

/-- Each draft of an alternation offers the choices of its sequence. -/
theorem Alternation.offers_drafts : ∀ (tree : Alternation) (position : Nat),
    Draft.OffersEach position (tree.drafts position) tree.choices
  | .one s, position => by
    have h := Draft.OffersEach.cons (Draft.offers_linked s position) .nil
    rw [List.append_nil] at h
    rw [drafts, Alternation.choices]
    exact h
  | .cons s rest, position => by
    rw [drafts, Alternation.choices]
    refine .cons ((Draft.offers_linked s position).append_gaps rest.width) ?_
    refine (rest.offers_drafts (position + s.width + 1)).map (g := id) rfl
      (fun _ _ => rfl) fun d _ cs h => ?_
    exact Draft.Offers.gaps (h.cast (by omega))

namespace Draft

section Group

variable {left right : Draft} {kind : GroupKind} {inner : Alternation}

theorem groupSlots_eq (position : Nat) (kind : GroupKind) (inner : Alternation) :
    groupSlots position kind inner =
      some (.opening kind (some (position + 1 + inner.width))) ::
        ((inner.linked (some position) (some (position + 1 + inner.width))
          (position + 1)).map some ++ [some (.closing kind (some position))]) := by
  simp [groupSlots, Sequence.linked]

/-- The slot behind a group is the first of what follows it. -/
theorem groupStop_group :
    groupStop (left ++ (groupSlots left.length kind inner ++ right))
        (left.length + 1 + inner.width) =
      if right[0]? = some (some .ellipsis) then left.length + inner.width + 3
      else left.length + inner.width + 2 := by
  have hget : (left ++ (groupSlots left.length kind inner ++ right))[
      left.length + 1 + inner.width + 1]? = right[0]? := by
    have hle : left.length ≤ left.length + 1 + inner.width + 1 := by omega
    have hlen : (groupSlots left.length kind inner).length ≤
        left.length + 1 + inner.width + 1 - left.length := by
      simp only [length_groupSlots]
      omega
    have hzero : left.length + 1 + inner.width + 1 - left.length -
        (groupSlots left.length kind inner).length = 0 := by
      simp only [length_groupSlots]
      omega
    rw [List.getElem?_append_right hle, List.getElem?_append_right hlen, hzero]
  rw [groupStop, hget]
  split <;> omega

/-- Leaving a group out empties its slots and the slot of an ellipsis behind it. -/
theorem clear_group :
    clear (left ++ (groupSlots left.length kind inner ++ right)) left.length
        (groupStop (left ++ (groupSlots left.length kind inner ++ right))
          (left.length + 1 + inner.width)) =
      left ++ (List.replicate (inner.width + 2) none ++ right.dropEllipsis) := by
  rw [groupStop_group]
  by_cases h : right[0]? = some (some .ellipsis)
  · obtain ⟨right, rfl⟩ : ∃ later, right = some .ellipsis :: later := by
      cases right with
      | nil => simp at h
      | cons slot later => exact ⟨later, by simpa using h⟩
    have hclear := clear_append left (groupSlots left.length kind inner ++ [some .ellipsis])
      right
    have hlen : (groupSlots left.length kind inner ++ [some Token.ellipsis]).length =
        inner.width + 3 := by
      simp
    rw [hlen, List.append_assoc, List.singleton_append] at hclear
    rw [if_pos h, Nat.add_assoc, hclear, dropEllipsis,
      List.replicate_succ' (n := inner.width + 2), List.append_assoc, List.singleton_append]
  · have hclear := clear_append left (groupSlots left.length kind inner) right
    have hsame : right.dropEllipsis = right := by
      rw [dropEllipsis]
      rintro later rfl
      exact h rfl
    rw [length_groupSlots] at hclear
    rw [if_neg h, Nat.add_assoc, hclear, hsame]

theorem exclusions_group (kind : GroupKind) {rs : List (List Token)}
    (hleft : left.Markless)
    (hright : Offers (left.length + (inner.width + 2)) right.dropEllipsis rs) :
    OffersEach 0 (exclusions (left ++ (groupSlots left.length kind inner ++ right)) kind
      left.length (left.length + 1 + inner.width))
      ((kind.omissions rs).map (left.filterMap id ++ ·)) := by
  cases kind with
  | required => exact .nil
  | optional =>
    have h : Offers 0 (left ++ (List.replicate (inner.width + 2) none ++
        right.dropEllipsis)) (rs.map (left.filterMap id ++ ·)) :=
      Offers.markless_append hleft ((Offers.gaps hright).cast (by omega))
    have heach := OffersEach.cons h .nil
    rw [List.append_nil] at heach
    rw [exclusions, clear_group]
    exact heach

/-- Taking part of a group empties its two halves. -/
theorem set_halves (left right slots : Draft) (opening closing : Option Token) :
    ((left ++ ((opening :: (slots ++ [closing])) ++ right)).set left.length none).set
        (left.length + 1 + slots.length) none =
      (left ++ [none]) ++ (slots ++ none :: right) := by
  have hle : (left ++ none :: slots).length ≤ left.length + 1 + slots.length := by
    simp only [List.length_append, List.length_cons]
    omega
  have hzero : left.length + 1 + slots.length - (left ++ none :: slots).length = 0 := by
    simp only [List.length_append, List.length_cons]
    omega
  have hopening : (left ++ ((opening :: (slots ++ [closing])) ++ right)).set left.length
      none = (left ++ none :: slots) ++ closing :: right := by
    rw [List.set_append_right left.length none (Nat.le_refl _)]
    simp
  rw [hopening, List.set_append_right _ none hle, hzero]
  simp

theorem halves_eq (left right : Draft) (kind : GroupKind) (inner : Alternation) :
    ((left ++ (groupSlots left.length kind inner ++ right)).set left.length none).set
        (left.length + 1 + inner.width) none =
      (left ++ [none]) ++ ((inner.linked (some left.length)
        (some (left.length + 1 + inner.width)) (left.length + 1)).map some ++ none :: right) := by
  have hset := set_halves left right ((inner.linked (some left.length)
    (some (left.length + 1 + inner.width)) (left.length + 1)).map some)
    (some (.opening kind (some (left.length + 1 + inner.width))))
    (some (.closing kind (some left.length)))
  rw [List.length_map, Alternation.length_linked] at hset
  rw [groupSlots_eq]
  exact hset

theorem inclusions_group (kind : GroupKind) {rs : List (List Token)}
    (hleft : left.Markless) (hright : Offers (left.length + (inner.width + 2)) right rs) :
    OffersEach 0 (inclusions (left ++ (groupSlots left.length kind inner ++ right))
      left.length (left.length + 1 + inner.width))
      ((products inner.choices rs).map (left.filterMap id ++ ·)) := by
  have hlen : (left ++ [none] : Draft).length = left.length + 1 := by simp
  have hbefore : Barless (some left.length) (left ++ [none]) :=
    (hleft.barless _).append (by simp [Barless, isBarOf])
  have hafter : Barless (some left.length) (none :: right) := by
    have h : right.Barless (some left.length) :=
      hright.barless fun x hx => by
        obtain rfl := Option.some.inj hx
        omega
    have hgap : Barless (some left.length) [none] := by simp [Barless, isBarOf]
    exact hgap.append h
  have hregion := alternatives_region (some left.length)
    (some (left.length + 1 + inner.width)) inner hbefore hafter (fun x hx => by
      obtain rfl := Option.some.inj hx
      omega)
  rw [hlen] at hregion
  rw [inclusions, halves_eq, hregion]
  -- Each alternative stands between what is before the group and what is behind it.
  refine (inner.offers_drafts (left.length + 1)).map
    (g := fun cs => (products cs rs).map (left.filterMap id ++ ·)) rfl
    (fun xs ys => by rw [products_append, List.map_append]) fun d hd cs h => ?_
  have hwidth := inner.length_of_mem_drafts _ d hd
  have hd := Offers.append_gap h (hright.cast (by omega))
  rw [List.append_assoc]
  exact Offers.markless_append hleft (.gap (hd.cast (by omega)))

end Group

/-- The first decision of a draft that offers choices leads to drafts that offer
the same choices, and it is there as long as a structural token is. -/
theorem exists_choices {d : Draft} {cs : List (List Token)} (h : Offers 0 d cs) :
    d.outcome = .finished ∧ cs = [d.filterMap id] ∨
      ∃ drafts, d.outcome = .choices drafts ∧ OffersEach 0 drafts cs := by
  have hbars : d.bars none = [] :=
    barsFrom_of_barless (h.barless fun _ hx => by cases hx) 0
  rcases h.first_group with ⟨hd, hcs⟩ |
    ⟨left, right, kind, inner, rs, rs', rfl, hleft, hin, hout, rfl⟩
  · exact Or.inl ⟨outcome_of_markless hd, hcs⟩
  · rw [Nat.zero_add] at hbars hin hout ⊢
    have hfirst : firstMark? (left ++ (groupSlots left.length kind inner ++ right)) =
        some (.opening kind (some (left.length + 1 + inner.width)), left.length) := by
      rw [groupSlots_eq]
      exact firstMark?_append hleft _ rfl _
    have hlt : left.length < left.length + 1 + inner.width := by omega
    have heach := (exclusions_group kind hleft hout).append
      (inclusions_group kind hleft hin)
    rw [← List.map_append] at heach
    refine Or.inr ⟨_, ?_, heach⟩
    rw [outcome, hbars, hfirst]
    simp only [List.isEmpty_nil, if_true, if_pos hlt]

/-- A balanced grammar with bars outside all groups comes to one draft for each
sequence of its tree, and any other one offers the choices of its tree. -/
theorem exists_choices_linked (tree : Alternation) {d : Draft}
    (hd : d = (tree.linked none none 0).map some) :
    Offers 0 d tree.choices ∨
      ∃ drafts, d.outcome = .choices drafts ∧ OffersEach 0 drafts tree.choices := by
  cases tree with
  | one s =>
    left
    rw [hd, Alternation.linked, Alternation.choices]
    exact offers_linked s 0
  | cons s rest =>
    have hstart : ∀ x, none = some x → x < ([] : Draft).length := by simp
    have hempty : Barless none [] := by simp [Barless]
    have hregion := alternatives_region none none (.cons s rest) hempty hempty hstart
    have hbars : d.bars none = (Alternation.cons s rest).barPositions 0 := by
      rw [hd]
      exact Alternation.barsFrom_linked none none _ 0 hstart
    have hlen : d.length = (Alternation.cons s rest).width := by
      simp [hd]
    refine Or.inr ⟨_, ?_, Alternation.offers_drafts (.cons s rest) 0⟩
    rw [outcome, hbars, hlen]
    simp only [Alternation.barPositions, List.isEmpty_cons, Bool.false_eq_true, if_false]
    simpa [hd] using hregion

end Draft

end Synopsis
