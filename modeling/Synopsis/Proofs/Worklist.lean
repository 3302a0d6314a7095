import Mathlib.Logic.Relation
import Synopsis.Proofs.Cardinality
import Synopsis.Proofs.Untouched

/-!
# The expansion as a loop

The expansion is carried out with a worklist.  A turn takes the draft on top and pushes what its
step comes to, so the drafts of a decision are decided from the last one on, and the variants are
found from the last one on.

* Every draft on the worklist is an `Item`, by induction on the turns (`items_of_reaches`), so no
  step springs a trap.
* A draft owes a variant for each choice that it offers, and takes at most one turn more for each
  of them than it has structural tokens.  `Owes` adds this up over the worklist, and every turn
  lowers the sum.  So the loop ends, with the variants that are owed (`ends_of_owes`), and these
  are the variants of the grammar (`harvest_of_tree`).

`ends_iff` compares the loop with `Grammar.expand`, and `ends_with_choices` reads its outcome off
the tree of the grammar.
-/

namespace Synopsis

/-- The drafts to be decided, the next one first, and the variants found so far. -/
structure Worklist where
  pending : List Draft
  found : Array Grammar

namespace Worklist

/-! ## Turns -/

/-- What a turn comes to. -/
inductive Turn
  /-- The loop goes on. -/
  | again (w : Worklist)
  /-- The loop ends. -/
  | done (result : Except Fault (List Grammar))
  /-- The turn cannot be carried out. -/
  | stuck (trap : Draft.Trap)

/-- One turn of the loop. -/
def turn (limit : Option Nat) (w : Worklist) : Turn :=
  match w.pending with
  | [] => .done (.ok w.found.toList.reverse)
  | d :: rest =>
    match d.pushes with
    | .error .unclosed => .done (.error .unclosedGroup)
    | .error trap => .stuck trap
    | .ok (some drafts) => .again ⟨drafts.reverse ++ rest, w.found⟩
    | .ok none =>
      match Draft.addVariant limit w.found d.compact with
      | .error fault => .done (.error fault)
      | .ok found => .again ⟨rest, found⟩

/-- The worklist of a balanced grammar. -/
def start (g : Grammar) : Worklist :=
  ⟨[.ofGrammar g], #[]⟩

/-- The turns from one worklist come to another. -/
def Reaches (limit : Option Nat) : Worklist → Worklist → Prop :=
  Relation.ReflTransGen fun w w' => w.turn limit = .again w'

/-- The loop ends with a result, after some number of turns. -/
inductive Ends (limit : Option Nat) : Worklist → Except Fault (List Grammar) → Prop
  | done {w : Worklist} {result : Except Fault (List Grammar)}
      (h : w.turn limit = .done result) : Ends limit w result
  | again {w w' : Worklist} {result : Except Fault (List Grammar)}
      (h : w.turn limit = .again w') (later : Ends limit w' result) : Ends limit w result

/-- A turn comes to one thing, so the loop ends in one way. -/
theorem Ends.unique {limit : Option Nat} {w : Worklist}
    {result result' : Except Fault (List Grammar)} (h : Ends limit w result)
    (h' : Ends limit w result') : result = result' := by
  induction h with
  | done h =>
    cases h' with
    | done h' => exact Turn.done.inj (h.symm.trans h')
    | again h' _ => cases h.symm.trans h'
  | again h _ ih =>
    cases h' with
    | done h' => cases h.symm.trans h'
    | again h' later =>
      obtain rfl := Turn.again.inj (h.symm.trans h')
      exact ih later

section Turns

variable {limit : Option Nat} {d : Draft} {rest : List Draft} {found : Array Grammar}

theorem turn_choices {drafts : List Draft} (h : d.pushes = .ok (some drafts)) :
    turn limit ⟨d :: rest, found⟩ = .again ⟨drafts.reverse ++ rest, found⟩ := by
  simp only [turn, h]

theorem turn_finished (h : d.pushes = .ok none) :
    turn limit ⟨d :: rest, found⟩ =
      match Draft.addVariant limit found d.compact with
      | .error fault => .done (.error fault)
      | .ok found => .again ⟨rest, found⟩ := by
  simp only [turn, h]

/-- A step that is in range springs no trap and finds no open group. -/
theorem turn_of_ok {drafts? : Option (List Draft)} (h : d.pushes = .ok drafts?) :
    (∀ trap, turn limit ⟨d :: rest, found⟩ ≠ .stuck trap) ∧
      turn limit ⟨d :: rest, found⟩ ≠ .done (.error .unclosedGroup) := by
  cases drafts? with
  | some drafts => simp [turn_choices h]
  | none =>
    rw [turn_finished h]
    cases limit with
    | none => simp [Draft.addVariant]
    | some n => by_cases hfull : n ≤ found.size <;> simp [Draft.addVariant, hfull]

end Turns

/-! ## Every draft is an item -/

section Items

variable {limit : Option Nat} {tree : Alternation} {w w' : Worklist}

/-- A turn leads from items to items. -/
theorem items_of_turn (h : w.turn limit = .again w')
    (hitems : ∀ d ∈ w.pending, Draft.Item (tree.linked none none 0) d) :
    ∀ d ∈ w'.pending, Draft.Item (tree.linked none none 0) d := by
  obtain ⟨pending, found⟩ := w
  cases pending with
  | nil => cases h
  | cons d rest =>
    obtain ⟨hitem, hrest⟩ := List.forall_mem_cons.1 hitems
    obtain ⟨drafts?, hpushes, houtcome⟩ := hitem.sound
    cases drafts? with
    | none =>
      rw [turn_finished hpushes] at h
      split at h
      · cases h
      · cases h
        exact hrest
    | some drafts =>
      rw [turn_choices hpushes] at h
      cases h
      intro c hc
      rcases List.mem_append.1 hc with hc | hc
      · exact hitem.of_choices houtcome (List.mem_reverse.1 hc)
      · exact hrest c hc

theorem items_of_reaches (h : Reaches limit w w')
    (hitems : ∀ d ∈ w.pending, Draft.Item (tree.linked none none 0) d) :
    ∀ d ∈ w'.pending, Draft.Item (tree.linked none none 0) d := by
  induction h with
  | refl => exact hitems
  | tail _ h ih => exact items_of_turn h ih

end Items

/-! ## The loop ends -/

/-- The choices that the pending drafts offer, those of the next draft last, and a bound on the
turns that they take. -/
inductive Owes : List Draft → List (List Token) → Nat → Prop
  | nil : Owes [] [] 0
  | cons {d : Draft} {rest : List Draft} {cs later : List (List Token)} {n : Nat}
      (h : Draft.Offers 0 d cs) (hrest : Owes rest later n) :
      Owes (d :: rest) (later ++ cs) (n + cs.length * (d.marks + 1))

/-- Drafts with less than `m` structural tokens take `m` turns at most for each choice. -/
theorem Owes.push {drafts rest : List Draft} {cs later : List (List Token)} {n m : Nat}
    (h : Draft.OffersEach 0 drafts cs) (hmarks : ∀ d ∈ drafts, d.marks < m)
    (hrest : Owes rest later n) :
    ∃ k ≤ n + cs.length * m, Owes (drafts.reverse ++ rest) (later ++ cs) k := by
  induction h generalizing rest later n with
  | nil => exact ⟨n, by simp, by simpa using hrest⟩
  | @cons d drafts cs cs' h _ ih =>
    obtain ⟨hd, hmarks⟩ := List.forall_mem_cons.1 hmarks
    obtain ⟨k, hle, howes⟩ := ih hmarks (hrest.cons h)
    refine ⟨k, Nat.le_trans hle ?_, by simpa using howes⟩
    have hcost : cs.length * (d.marks + 1) ≤ cs.length * m := Nat.mul_le_mul_left _ hd
    rw [List.length_append, Nat.add_mul]
    omega

/-- What adding the variants of these choices comes to, from the last one on. -/
def harvest (limit : Option Nat) (cs : List (List Token)) (found : Array Grammar) :
    Except Fault (List Grammar) :=
  ((cs.map variant).reverse.foldlM (Draft.addVariant limit) found).map (·.toList.reverse)

theorem harvest_concat {limit : Option Nat} {cs : List (List Token)} {c : List Token}
    {found : Array Grammar} :
    harvest limit (cs ++ [c]) found =
      match Draft.addVariant limit found (variant c) with
      | .error fault => .error fault
      | .ok found => harvest limit cs found := by
  rw [harvest, List.map_append, List.reverse_append]
  show ((variant c :: (cs.map variant).reverse).foldlM (Draft.addVariant limit) found).map _ = _
  rw [List.foldlM_cons]
  cases Draft.addVariant limit found (variant c) <;> rfl

/-- The loop ends, and adds all variants that are owed. -/
theorem ends_of_owes {limit : Option Nat} {pending : List Draft} {cs : List (List Token)} {n : Nat}
    (h : Owes pending cs n) (found : Array Grammar) :
    Ends limit ⟨pending, found⟩ (harvest limit cs found) := by
  induction n using Nat.strongRecOn generalizing pending cs found with
  | ind n ih =>
    cases h with
    | nil => exact .done rfl
    | @cons d rest cs later m hoffers hrest =>
      rcases Draft.exists_choices hoffers with ⟨hfinished, rfl⟩ | ⟨drafts, hchoices, heach⟩
      · have hturn : turn limit ⟨d :: rest, found⟩ = _ :=
          turn_finished (hoffers.sound.pushes_of_finished hfinished)
        rw [Draft.compact_eq_variant] at hturn
        rw [harvest_concat]
        cases hadd : Draft.addVariant limit found (variant (d.filterMap id)) with
        | error fault =>
          rw [hadd] at hturn
          exact .done hturn
        | ok found' =>
          rw [hadd] at hturn
          exact .again hturn (ih m (by simp) hrest found')
      · have hpushes := hoffers.sound.pushes_of_choices hchoices
        obtain ⟨k, hle, howes⟩ := hrest.push heach fun c hc =>
          Draft.marks_lt_of_mem_choices hchoices hc
        have hpos := hoffers.length_pos
        have hlt : k < m + cs.length * (d.marks + 1) := by
          rw [Nat.mul_succ]
          omega
        exact .again (turn_choices hpushes) (ih k hlt howes found)

/-- A balanced grammar owes the choices of its tree. -/
theorem ends_linked (limit : Option Nat) (tree : Alternation) :
    Ends limit (start ⟨tree.linked none none 0⟩) (harvest limit tree.choices #[]) := by
  rcases Draft.exists_choices_linked tree rfl with hoffers | ⟨drafts, hchoices, heach⟩
  · exact ends_of_owes (Owes.nil.cons hoffers) #[]
  · have hpushes := (Draft.sound_linked tree).pushes_of_choices hchoices
    obtain ⟨k, -, howes⟩ := Owes.nil.push heach fun c hc =>
      Draft.marks_lt_of_mem_choices hchoices hc
    exact .again (turn_choices hpushes) (ends_of_owes howes #[])

theorem harvest_of_tree {g : Grammar} {tree : Alternation}
    (h : tree.tokens = g.unlinked.tokens) (limit : Option Nat) :
    harvest limit tree.choices #[] = g.expand limit := by
  cases limit with
  | none =>
    rw [harvest, Draft.foldlM_addVariant, Grammar.expand_unlimited_of_tree h]
    simp [Except.map]
  | some n =>
    rw [harvest, Draft.foldlM_addVariant_bounded _ #[] (Nat.zero_le n),
      Grammar.expand_bounded_of_tree h, ← tree.length_choices]
    simp only [List.length_reverse, List.length_map, List.size_toArray, List.length_nil,
      Nat.zero_add]
    split
    · simp [Except.map]
    · rfl

/-- On a balanced grammar the loop ends with what expanding the grammar comes to, and with nothing
else. -/
theorem ends_iff {g linked : Grammar} (h : g.balance = .ok linked) {limit : Option Nat}
    {result : Except Fault (List Grammar)} :
    Ends limit (start linked) result ↔ result = g.expand limit := by
  obtain ⟨tree, htree, rfl⟩ := Grammar.exists_tree_of_balance h
  have hends := ends_linked limit tree
  rw [harvest_of_tree htree] at hends
  constructor
  · intro hresult
    exact hresult.unique hends
  · intro hresult
    rw [hresult]
    exact hends

/-- A grammar whose groups nest can be balanced and read as a tree, and the loop ends in one way.
Without a limit it ends with the choices of the tree in their order, each with its separators
compacted.  Under a limit it ends with the same variants where the tree has no more choices than
that, and otherwise with the fault that there are too many. -/
theorem ends_with_choices (g : Grammar) (h : WellNested g.tokens) :
    ∃ linked, g.balance = .ok linked ∧
      (∃ tree : Alternation, tree.tokens = g.unlinked.tokens) ∧
      ∀ tree : Alternation, tree.tokens = g.unlinked.tokens →
        (∀ result, Ends none (start linked) result ↔
          result = .ok (tree.choices.map fun choice => ⟨spaced choice⟩)) ∧
        ∀ n result, Ends (some n) (start linked) result ↔
          result = if tree.count ≤ n then .ok (tree.choices.map fun choice => ⟨spaced choice⟩)
            else .error (.tooManyVariants n) := by
  obtain ⟨first, hfirst⟩ := exists_tree h
  have hbalance := Grammar.balance_of_tree hfirst.symm
  refine ⟨_, hbalance, ⟨first, hfirst⟩, fun tree htree => ⟨fun result => ?_, fun n result => ?_⟩⟩
  · rw [ends_iff hbalance, Grammar.expand_unlimited_of_tree htree]
    rfl
  · rw [ends_iff hbalance, Grammar.expand_bounded_of_tree htree]
    rfl

/-- Every draft that the expansion of a balanced grammar takes from its worklist is safe, so each
turn can be carried out and finds no open group, and the loop ends with the variants of the
grammar, or with the fault that there are too many. -/
theorem safe_and_ends (g : Grammar) (limit : Option Nat) {linked : Grammar}
    (h : g.balance = .ok linked) :
    (∀ d rest found, Reaches limit (start linked) ⟨d :: rest, found⟩ →
      Draft.Safe linked.tokens d) ∧
    (∀ w, Reaches limit (start linked) w →
      (∀ trap, w.turn limit ≠ .stuck trap) ∧ w.turn limit ≠ .done (.error .unclosedGroup)) ∧
    Ends limit (start linked) (g.expand limit) := by
  obtain ⟨tree, -, rfl⟩ := Grammar.exists_tree_of_balance h
  have hsafe : ∀ d rest found, Reaches limit (start ⟨tree.linked none none 0⟩)
      ⟨d :: rest, found⟩ → Draft.Safe (tree.linked none none 0) d := by
    intro d rest found hreaches
    refine (items_of_reaches hreaches ?_ d List.mem_cons_self).safe
    simpa [start, Draft.ofGrammar] using Draft.Item.start (tree.linked none none 0)
  refine ⟨hsafe, fun w hreaches => ?_, (ends_iff h).2 rfl⟩
  obtain ⟨pending, found⟩ := w
  cases pending with
  | nil => exact ⟨by simp [turn], by simp [turn]⟩
  | cons d rest =>
    obtain ⟨drafts?, hpushes, -⟩ := (hsafe d rest found hreaches).step
    exact turn_of_ok hpushes

/-- `[(a|b)]...|c`, with links that are out of date. -/
def groupBeforeBar : Grammar :=
  ⟨[.opening .optional (some 7), .opening .required none, .word "a", .bar none none, .word "b",
    .closing .required none, .closing .optional none, .ellipsis, .bar (some 3) (some 1),
    .word "c"]⟩

/-- The same grammar with the links that balancing sets. -/
def groupBeforeBarLinked : Grammar :=
  ⟨[.opening .optional (some 6), .opening .required (some 5), .word "a", .bar (some 1) (some 5),
    .word "b", .closing .required (some 1), .closing .optional (some 0), .ellipsis,
    .bar none none, .word "c"]⟩

/-- The fourth variant is one too many for a limit of three. -/
theorem safe_and_ends_of_group_before_bar :
    groupBeforeBar.balance = .ok groupBeforeBarLinked ∧
    (∀ d rest found, Reaches (some 3) (start groupBeforeBarLinked) ⟨d :: rest, found⟩ →
      Draft.Safe groupBeforeBarLinked.tokens d) ∧
    Ends (some 3) (start groupBeforeBarLinked) (.error (.tooManyVariants 3)) := by
  have hbalance : groupBeforeBar.balance = .ok groupBeforeBarLinked := rfl
  obtain ⟨hsafe, -, hends⟩ := safe_and_ends groupBeforeBar (some 3) hbalance
  have hexpand := @Grammar.expand_bounded_of_tree groupBeforeBar
    (.cons (.group .optional (.one (.group .required (.cons (.token ⟨.word "a", rfl⟩ .nil)
      (.one (.token ⟨.word "b", rfl⟩ .nil))) .nil)) (.token .ellipsis .nil))
        (.one (.token ⟨.word "c", rfl⟩ .nil))) (by decide) 3
  rw [if_neg (by decide)] at hexpand
  exact ⟨hbalance, hsafe, hexpand ▸ hends⟩

end Worklist

end Synopsis
