import Synopsis.Proofs.Links

/-!
# Where balancing fails

Balancing succeeds on the token sequences that nest, and sets the right links in
them.  On any other one it stops at the first closing half that no continuation
can repair, or at the end when there is none.

`Pending before stack` is the invariant of the pass.  The tokens read so far nest
up to the groups on the stack, which are still open, and the frames of the pass
are those groups.
-/

namespace Synopsis

/-! ## Prefixes that cannot be continued -/

/-- The tokens can be continued to a sequence that nests. -/
def Viable (ts : List Token) : Prop :=
  ∃ rest, WellNested (ts ++ rest)

/-- At `p` stands a closing half, and the tokens up to it cannot be continued to
a sequence that nests. -/
def BadClosing (ts : List Token) (p : Nat) : Prop :=
  (∃ kind q, ts[p]? = some (.closing kind q)) ∧ ¬ Viable (ts.take (p + 1))

/-- The first of these closing halves stands at `p`. -/
structure FirstBad (ts : List Token) (p : Nat) : Prop where
  bad : BadClosing ts p
  least : ∀ p', p' < p → ¬ BadClosing ts p'

/-- The group that opens at `o` is not closed before `p`. -/
structure OpenAt (ts : List Token) (o p : Nat) : Prop where
  before : o < p
  opening : ∃ kind q, ts[o]? = some (.opening kind q)
  unclosed : ∀ c, c < p → ¬ Mates ts o c

/-- The innermost group that is open at `p` opens at `o`. -/
structure InnermostOpen (ts : List Token) (o p : Nat) : Prop where
  isOpen : OpenAt ts o p
  innermost : ∀ o', OpenAt ts o' p → o' ≤ o

theorem Viable.take {ts : List Token} (h : Viable ts) (n : Nat) : Viable (ts.take n) := by
  obtain ⟨rest, hrest⟩ := h
  refine ⟨ts.drop n ++ rest, ?_⟩
  rwa [← List.append_assoc, List.take_append_drop]

/-! ## Pending groups -/

/-- The tokens nest, up to the groups on the stack, which are open.  Each is given
by its position and kind, the innermost first. -/
inductive Pending : List Token → List (Nat × GroupKind) → Prop
  | closed {ts : List Token} (h : WellNested ts) : Pending ts []
  | opened {before inside : List Token} {stack : List (Nat × GroupKind)}
      {kind : GroupKind} {p : Option Nat} (h : Pending before stack)
      (hinside : WellNested inside) :
      Pending (before ++ .opening kind p :: inside) ((before.length, kind) :: stack)

namespace Pending

variable {ts : List Token} {stack : List (Nat × GroupKind)}

theorem wellNested (h : Pending ts []) : WellNested ts := by
  cases h with
  | closed h => exact h

theorem append (h : Pending ts stack) {more : List Token} (hmore : WellNested more) :
    Pending (ts ++ more) stack := by
  cases h with
  | closed h => exact .closed (h.append hmore)
  | opened h hinside =>
    rw [List.append_assoc, List.cons_append]
    exact .opened h (hinside.append hmore)

theorem close {opening : Nat} {kind : GroupKind} (h : Pending ts ((opening, kind) :: stack))
    (q : Option Nat) : Pending (ts ++ [.closing kind q]) stack := by
  cases h with
  | opened h hinside =>
    rw [List.append_assoc, List.cons_append]
    exact h.append (.group hinside .nil)

/-- Closing the open groups makes the whole nest. -/
theorem exists_rest (h : Pending ts stack) :
    ∃ rest, ∀ more, WellNested more → WellNested (ts ++ (more ++ rest)) := by
  induction h with
  | closed h => exact ⟨[], fun more hmore => h.append (by simpa using hmore)⟩
  | @opened before inside stack kind p _ hinside ih =>
    obtain ⟨rest, hrest⟩ := ih
    refine ⟨.closing kind none :: rest, fun more hmore => ?_⟩
    have hgroup : WellNested (.opening kind p ::
        ((inside ++ more) ++ .closing kind none :: [])) :=
      .group (hinside.append hmore) .nil
    simpa using hrest _ hgroup

theorem viable (h : Pending ts stack) : Viable ts := by
  obtain ⟨rest, hrest⟩ := h.exists_rest
  exact ⟨rest, by simpa using hrest [] .nil⟩

/-- Tokens leave some groups open, or a closing half stands in them that is not of
the kind of the innermost open group. -/
theorem or_fault (rest : List Token) : ∀ {ts : List Token} {stack : List (Nat × GroupKind)},
    Pending ts stack →
    (∃ stack', Pending (ts ++ rest) stack') ∨
      ∃ before kind q after stack', ts ++ rest = before ++ .closing kind q :: after ∧
        Pending before stack' ∧ stack'.head?.map Prod.snd ≠ some kind := by
  induction rest with
  | nil => exact fun h => Or.inl ⟨_, by simpa using h⟩
  | cons token rest ih =>
    intro ts stack h
    by_cases hplain : token.isStructural = false
    · simpa using ih (h.append (.plain hplain .nil))
    · cases token with
      | opening kind p => simpa using ih (h.opened .nil)
      | bar start next => simpa using ih (h.append (@WellNested.bar start next [] .nil))
      | closing kind q =>
        by_cases htop : stack.head?.map Prod.snd = some kind
        · cases stack with
          | nil => simp at htop
          | cons top stack =>
            obtain ⟨opening, kind'⟩ := top
            obtain rfl : kind' = kind := by simpa using htop
            simpa using ih (h.close q)
        · exact Or.inr ⟨ts, kind, q, rest, stack, rfl, h, htop⟩
      | separator => exact absurd rfl hplain
      | word name => exact absurd rfl hplain
      | option name value => exact absurd rfl hplain
      | positional placeholder => exact absurd rfl hplain
      | ellipsis => exact absurd rfl hplain

end Pending

/-! ## The pass over pending groups -/

namespace Linking

/-- The open groups, each by its position and kind. -/
def stack (s : Linking) : List (Nat × GroupKind) :=
  s.frames.map fun frame => (frame.opening, frame.kind)

@[simp] theorem stack_withTokens (s : Linking) (tokens : List Token) :
    (s.withTokens tokens).stack = s.stack := rfl

@[simp] theorem stack_withLastBar (s : Linking) (bar : Option Nat) :
    (s.withLastBar bar).stack = s.stack := by
  obtain ⟨_, frames, _⟩ := s
  cases frames <;> rfl

theorem exists_step_closing {s : Linking} {opening : Nat} {kind : GroupKind}
    {outer : List (Nat × GroupKind)} (h : s.stack = (opening, kind) :: outer)
    (q : Option Nat) (position : Nat) :
    ∃ s', s.step (.closing kind q) position = .ok s' ∧ s'.stack = outer := by
  obtain ⟨tokens, frames, topBar⟩ := s
  obtain ⟨frame, frames, rfl, hframe, houter⟩ := List.map_eq_cons_iff.1 h
  obtain rfl : frame.kind = kind := congrArg Prod.snd hframe
  exact ⟨_, step_closing q position, houter⟩

/-- The pass reads tokens that nest without a fault, and leaves the same groups
open. -/
theorem run_wellNested {ts : List Token} (h : WellNested ts) :
    ∀ (s : Linking) (position : Nat), ∃ s' : Linking, s'.stack = s.stack ∧
      ∀ rest, s.run position (ts ++ rest) = s'.run (position + ts.length) rest := by
  induction h with
  | nil => exact fun s position => ⟨s, rfl, fun rest => rfl⟩
  | plain h _ ih =>
    intro s position
    obtain ⟨s', hs', hrun⟩ := ih s (position + 1)
    refine ⟨s', hs', fun rest => ?_⟩
    rw [List.cons_append, run_cons (step_plain s h position), hrun, List.length_cons,
      Nat.add_assoc, Nat.add_comm 1]
  | @bar start next _ _ ih =>
    intro s position
    have hstep := step_bar s start next position
    obtain ⟨s', hs', hrun⟩ := ih ((s.withTokens ((chain s.tokens s.lastBar position).set
      position (.bar s.start none))).withLastBar (some position)) (position + 1)
    refine ⟨s', hs'.trans (by simp), fun rest => ?_⟩
    rw [List.cons_append, run_cons hstep, hrun, List.length_cons, Nat.add_assoc,
      Nat.add_comm 1]
  | @group kind p q inner rest _ _ ihinner ihrest =>
    intro s position
    have hopen : s.step (.opening kind p) position =
        .ok { s with frames := ⟨position, kind, none⟩ :: s.frames } := rfl
    obtain ⟨s₁, hs₁, hrun₁⟩ := ihinner
      { s with frames := ⟨position, kind, none⟩ :: s.frames } (position + 1)
    obtain ⟨s₂, hstep, hs₂⟩ := exists_step_closing hs₁ q (position + 1 + inner.length)
    obtain ⟨s₃, hs₃, hrun₃⟩ := ihrest s₂ (position + 1 + inner.length + 1)
    refine ⟨s₃, hs₃.trans hs₂, fun later => ?_⟩
    have hread : .opening kind p :: (inner ++ .closing kind q :: rest) ++ later =
        .opening kind p :: (inner ++ .closing kind q :: (rest ++ later)) := by simp
    rw [hread, run_cons hopen, hrun₁, run_cons hstep, hrun₃]
    congr 1
    simp only [List.length_cons, List.length_append]
    omega

/-- The pass reads tokens without a fault as long as they can be continued, and
its frames are the groups that they leave open. -/
theorem run_pending {ts : List Token} {stack : List (Nat × GroupKind)}
    (h : Pending ts stack) (tokens : List Token) :
    ∃ s : Linking, s.stack = stack ∧
      ∀ rest, run ⟨tokens, [], none⟩ 0 (ts ++ rest) = s.run ts.length rest := by
  induction h with
  | closed h =>
    obtain ⟨s, hs, hrun⟩ := run_wellNested h ⟨tokens, [], none⟩ 0
    exact ⟨s, hs, fun rest => by rw [hrun, Nat.zero_add]⟩
  | @opened before inside stack kind p _ hinside ih =>
    obtain ⟨s, rfl, hrun⟩ := ih
    have hopen : s.step (.opening kind p) before.length =
        .ok { s with frames := ⟨before.length, kind, none⟩ :: s.frames } := rfl
    obtain ⟨s', hs', hrun'⟩ := run_wellNested hinside
      { s with frames := ⟨before.length, kind, none⟩ :: s.frames } (before.length + 1)
    refine ⟨s', hs', fun rest => ?_⟩
    rw [List.append_assoc, hrun, List.cons_append, run_cons hopen, hrun']
    congr 1
    simp only [List.length_append, List.length_cons]
    omega

/-- What a closing half at `p` is reported as when it does not close the innermost
open group. -/
def closingFault (stack : List (Nat × GroupKind)) (p : Nat) : Fault :=
  match stack with
  | [] => .unbalancedEnd p
  | (opening, _) :: _ => .mismatchedGroup opening p

theorem step_fault {s : Linking} {kind : GroupKind}
    (h : s.stack.head?.map Prod.snd ≠ some kind) (q : Option Nat) (p : Nat) :
    s.step (.closing kind q) p = .error (closingFault s.stack p) := by
  obtain ⟨tokens, frames, topBar⟩ := s
  cases frames with
  | nil => rfl
  | cons frame frames =>
    have hkind : frame.kind ≠ kind := by simpa [stack] using h
    simp [step, hkind, closingFault, stack]

end Linking

namespace Grammar

open Linking

theorem balance_of_fault {g : Grammar} {before after : List Token} {kind : GroupKind}
    {q : Option Nat} {stack : List (Nat × GroupKind)}
    (hg : g.tokens = before ++ .closing kind q :: after) (h : Pending before stack)
    (hkind : stack.head?.map Prod.snd ≠ some kind) :
    g.balance = .error (closingFault stack before.length) := by
  obtain ⟨s, rfl, hrun⟩ := run_pending h g.tokens
  have hfault : run ⟨g.tokens, [], none⟩ 0 g.tokens =
      (s, some (closingFault s.stack before.length)) := by
    rw [congrArg (run _ 0) hg, hrun, run, step_fault hkind]
  rw [balance, link, hfault]

theorem balance_of_pending {g : Grammar} {stack : List (Nat × GroupKind)}
    (h : Pending g.tokens stack) (hopen : stack ≠ []) :
    g.balance = .error .unclosedGroup := by
  obtain ⟨s, rfl, hrun⟩ := run_pending h g.tokens
  have hframes : s.frames.isEmpty = false := by
    cases hs : s.frames with
    | nil => exact absurd (by simp [Linking.stack, hs]) hopen
    | cons _ _ => rfl
  have hfault : run ⟨g.tokens, [], none⟩ 0 g.tokens = (s, some .unclosedGroup) := by
    have hend := hrun []
    rw [List.append_nil] at hend
    rw [hend, run, hframes]
    rfl
  rw [balance, link, hfault]

/-- Balancing a grammar whose groups nest sets the right links. -/
theorem balance_of_wellNested {g : Grammar} (h : WellNested g.tokens) :
    ∃ linked, g.balance = .ok linked ∧ linked.unlinked = g.unlinked ∧
      RightLinks linked.tokens := by
  obtain ⟨tree, htree⟩ := exists_tree h
  refine ⟨⟨tree.linked none none 0⟩, balance_of_tree htree.symm, ?_, rightLinks_linked tree⟩
  rw [unlinked, tree.unlinked_linked, htree]
  rfl

end Grammar

/-! ## The first closing half that cannot be repaired -/

section Fault

variable {before : List Token} {kind : GroupKind} {stack : List (Nat × GroupKind)}

theorem not_viable_of_fault (q : Option Nat) (h : Pending before stack)
    (hkind : stack.head?.map Prod.snd ≠ some kind) :
    ¬ Viable (before ++ [.closing kind q]) := by
  rintro ⟨rest, hrest⟩
  rw [List.append_assoc, List.singleton_append] at hrest
  obtain ⟨linked, hlinked, _⟩ := Grammar.balance_of_wellNested (g := ⟨_⟩) hrest
  have hfault := Grammar.balance_of_fault (g := ⟨before ++ .closing kind q :: rest⟩) rfl h
    hkind
  cases hlinked.symm.trans hfault

theorem firstBad_of_fault (after : List Token) (q : Option Nat) (h : Pending before stack)
    (hkind : stack.head?.map Prod.snd ≠ some kind) :
    FirstBad (before ++ .closing kind q :: after) before.length := by
  have htake : (before ++ Token.closing kind q :: after).take (before.length + 1) =
      before ++ [.closing kind q] := by
    rw [List.take_length_add_append]
    rfl
  refine ⟨⟨⟨kind, q, by simp⟩, ?_⟩, fun p hp hbad => hbad.2 ?_⟩
  · rw [htake]
    exact not_viable_of_fault q h hkind
  · rw [List.take_append_of_le_length hp]
    exact h.viable.take (p + 1)

/-- A group in tokens that nest is closed in them, so it is not open behind them. -/
theorem not_openAt_of_wellNested (left right : List Token) {inside : List Token}
    {o : Nat} (hinside : WellNested inside) (ho : left.length ≤ o) :
    ¬ OpenAt (left ++ (inside ++ right)) o (left.length + inside.length) := by
  rintro ⟨hlt, ⟨kind, p, hget⟩, hunclosed⟩
  obtain ⟨i, rfl⟩ : ∃ i, o = left.length + i := ⟨o - left.length, by omega⟩
  have hi : i < inside.length := by omega
  rw [List.getElem?_append_right (Nat.le_add_right _ _), Nat.add_sub_cancel_left,
    List.getElem?_append_left hi] at hget
  obtain ⟨c, hmates, hc⟩ := hinside.exists_mate hget
  exact hunclosed (left.length + c) (by omega) (hmates.append left right)

/-- The group on top of the stack is the innermost one that is open. -/
theorem innermostOpen_of_pending (left right : List Token) (kind : GroupKind)
    (p : Option Nat) {inside : List Token} (hinside : WellNested inside) :
    InnermostOpen (left ++ .opening kind p :: inside ++ right) left.length
      (left ++ .opening kind p :: inside).length := by
  have hlength : (left ++ .opening kind p :: inside).length =
      left.length + 1 + inside.length := by
    simp only [List.length_append, List.length_cons]
    omega
  rw [hlength, List.append_assoc]
  refine ⟨⟨by omega, ⟨kind, p, by simp⟩, fun c hc hmates => ?_⟩, fun o ho => ?_⟩
  · have hlt := hmates.opening_lt_closing
    have hbehind := hmates.height_behind
    obtain ⟨m, rfl⟩ : ∃ m, c = left.length + m := ⟨c - left.length, by omega⟩
    have hm : m ≤ inside.length := by omega
    have hnonneg := hinside.height_nonneg m
    rw [Nat.add_assoc, height_append_right, height_append_left _ _ (Nat.le_refl _),
      List.cons_append, height_cons, height_append_left _ _ hm] at hbehind
    simp only [Token.rise] at hbehind
    omega
  · by_cases hle : o ≤ left.length
    · exact hle
    · have hsplit : left ++ (.opening kind p :: inside ++ right) =
          (left ++ [.opening kind p]) ++ (inside ++ right) := by simp
      have hlen : left.length + 1 = (left ++ [Token.opening kind p]).length := by simp
      rw [hsplit, hlen] at ho
      exact absurd ho (not_openAt_of_wellNested _ right hinside (by omega))

end Fault

namespace Grammar

/-- A grammar whose groups do not nest has a first closing half that cannot be
repaired, which is what the fault is about, or it leaves a group open. -/
theorem balance_of_not_wellNested {g : Grammar} (h : ¬ WellNested g.tokens) :
    (∃ p, FirstBad g.tokens p ∧
      ((∀ o, ¬ OpenAt g.tokens o p) ∧ g.balance = .error (.unbalancedEnd p) ∨
        ∃ o, InnermostOpen g.tokens o p ∧ g.balance = .error (.mismatchedGroup o p))) ∨
      (∀ p, ¬ BadClosing g.tokens p) ∧ g.balance = .error .unclosedGroup := by
  rcases (Pending.closed .nil).or_fault g.tokens with ⟨stack, hpending⟩ |
    ⟨before, kind, q, after, stack, hg, hpending, hkind⟩
  · right
    rw [List.nil_append] at hpending
    refine ⟨fun p hbad => hbad.2 (hpending.viable.take (p + 1)), ?_⟩
    apply balance_of_pending hpending
    intro heq
    subst heq
    exact h hpending.wellNested
  · left
    rw [List.nil_append] at hg
    have hbalance := balance_of_fault hg hpending hkind
    have hfirst := firstBad_of_fault after q hpending hkind
    rw [hg]
    refine ⟨before.length, hfirst, ?_⟩
    cases hpending with
    | closed hnested =>
      refine Or.inl ⟨fun o ho => ?_, hbalance⟩
      have hopen := not_openAt_of_wellNested [] (.closing kind q :: after) hnested
        (Nat.zero_le o)
      rw [List.length_nil, Nat.zero_add, List.nil_append] at hopen
      exact hopen ho
    | @opened outer inside _ _ p _ hinside =>
      exact Or.inr ⟨outer.length,
        innermostOpen_of_pending outer (.closing kind q :: after) _ p hinside, hbalance⟩

/-- Two grammars that differ in their links only are balanced to the same one. -/
theorem balance_eq_of_unlinked {g g' : Grammar} (h : WellNested g.tokens)
    (hlinks : g'.unlinked = g.unlinked) : g'.balance = g.balance := by
  obtain ⟨tree, htree⟩ := exists_tree h
  have htree' : g'.tokens.map Token.unlinked = tree.tokens :=
    (congrArg Grammar.tokens hlinks).trans htree.symm
  rw [balance_of_tree htree.symm, balance_of_tree htree']

theorem wellNested_of_balance {g linked : Grammar} (h : g.balance = .ok linked) :
    WellNested g.tokens := by
  refine Classical.byContradiction fun hnested => ?_
  rcases balance_of_not_wellNested hnested with
    ⟨p, _, ⟨_, hfault⟩ | ⟨o, _, hfault⟩⟩ | ⟨_, hfault⟩
  all_goals cases h.symm.trans hfault

/-- A balanced grammar has the tokens and the links of a tree. -/
theorem exists_tree_of_balance {g linked : Grammar} (h : g.balance = .ok linked) :
    ∃ tree : Alternation, tree.tokens = g.unlinked.tokens ∧ linked = ⟨tree.linked none none 0⟩ := by
  obtain ⟨tree, htree⟩ := exists_tree (wellNested_of_balance h)
  exact ⟨tree, htree, Except.ok.inj (h.symm.trans (balance_of_tree htree.symm))⟩

theorem not_badClosing_of_wellNested {ts : List Token} (h : WellNested ts) (p : Nat) :
    ¬ BadClosing ts p :=
  fun hbad => hbad.2 ((Pending.closed h).viable.take (p + 1))

/-- Balancing accepts exactly the grammars whose groups nest, and sets the right
links in them whatever links there were before.  On any other grammar it reports the
first closing half that cannot be repaired: that no group is open there, or else that
the innermost group open there is of the other kind.  Without such a closing half it
reports that a group is not closed. -/
theorem balance_exact (g : Grammar) :
    ((∃ linked, g.balance = .ok linked) ↔ WellNested g.tokens) ∧
    (∀ linked, g.balance = .ok linked →
      linked.unlinked = g.unlinked ∧ RightLinks linked.tokens ∧
        ∀ g' : Grammar, g'.unlinked = g.unlinked → g'.balance = .ok linked) ∧
    ((∃ p, BadClosing g.tokens p) → ∃ p, FirstBad g.tokens p ∧
      ((∀ o, ¬ OpenAt g.tokens o p) → g.balance = .error (.unbalancedEnd p)) ∧
      ((∃ o, OpenAt g.tokens o p) → ∃ o, InnermostOpen g.tokens o p ∧
        g.balance = .error (.mismatchedGroup o p))) ∧
    (¬ WellNested g.tokens → (∀ p, ¬ BadClosing g.tokens p) →
      g.balance = .error .unclosedGroup) := by
  refine ⟨⟨fun ⟨linked, h⟩ => wellNested_of_balance h, fun h => ?_⟩, fun linked h => ?_,
    fun ⟨p, hbad⟩ => ?_, fun hnested hnone => ?_⟩
  · obtain ⟨linked, hlinked, _⟩ := balance_of_wellNested h
    exact ⟨linked, hlinked⟩
  · have hnested := wellNested_of_balance h
    obtain ⟨linked', hlinked', hsame, hright⟩ := balance_of_wellNested hnested
    obtain rfl := Except.ok.inj (hlinked'.symm.trans h)
    exact ⟨hsame, hright, fun g' hg' => (balance_eq_of_unlinked hnested hg').trans h⟩
  · have hnested : ¬ WellNested g.tokens :=
      fun h => not_badClosing_of_wellNested h p hbad
    rcases balance_of_not_wellNested hnested with ⟨p, hfirst, hfault⟩ | ⟨hnone, _⟩
    · refine ⟨p, hfirst, fun hclosed => ?_, fun ⟨o, ho⟩ => ?_⟩
      · rcases hfault with ⟨_, hfault⟩ | ⟨o, ho, _⟩
        · exact hfault
        · exact absurd ho.isOpen (hclosed o)
      · rcases hfault with ⟨hclosed, _⟩ | hfault
        · exact absurd ho (hclosed o)
        · exact hfault
    · exact absurd hbad (hnone p)
  · rcases balance_of_not_wellNested hnested with ⟨p, hfirst, _⟩ | ⟨_, hfault⟩
    · exact absurd hfirst.bad (hnone p)
    · exact hfault

/-- `(a|[b]|c)` with the links that balancing sets. -/
theorem rightLinks_group_of_three :
    RightLinks [.opening .required (some 8), .word "a", .bar (some 0) (some 6),
      .opening .optional (some 5), .word "b", .closing .optional (some 3),
      .bar (some 0) (some 8), .word "c", .closing .required (some 0)] :=
  ((balance_exact ⟨[.opening .required none, .word "a", .bar (some 4) (some 1),
    .opening .optional none, .word "b", .closing .optional (some 0), .bar none none,
    .word "c", .closing .required none]⟩).2.1 ⟨_⟩ rfl).2.1

end Grammar

end Synopsis
