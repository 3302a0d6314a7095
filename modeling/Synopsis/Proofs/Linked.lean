import Synopsis.Grammar.Balance
import Synopsis.Proofs.Tree

/-!
# The links of a tree

`Alternation.linked` writes a tree down with the links that its shape gives to
the groups and bars, from a position on.  The main result is `Grammar.balance_of_tree`:
balancing a grammar that can be read as a tree gives exactly these tokens,
whatever links the grammar had before.

The pass of `Linking.run` works on one flat list.  `Sequence.run_tokens` and
`Alternation.run_tokens` say what it has done when it has moved over the tokens
of one tree, with any tokens before and behind them.  They are one induction on
the tree.  Two kinds of links stay open while the pass is inside an alternation:
that of the last bar seen before it, which `linkTo` sets at its first bar, and
that of its own last bar, which `chain_lastBar` sets at the closing half.
-/

namespace Synopsis

/-! ## Linked tokens -/

/-- The position of the first bar of an alternation. -/
def Alternation.firstBar? (position : Nat) : Alternation → Option Nat
  | .one _ => none
  | .cons s _ => some (position + s.width)

@[simp] theorem Alternation.firstBar?_one (position : Nat) (s : Sequence) :
    (Alternation.one s).firstBar? position = none := rfl

@[simp] theorem Alternation.firstBar?_cons (position : Nat) (s : Sequence)
    (rest : Alternation) :
    (Alternation.cons s rest).firstBar? position = some (position + s.width) := rfl

mutual

/-- The tokens of an alternation from `position` on, with their links.  The
bars start at `start`, and `stop` is what the last one links to. -/
def Alternation.linked (start stop : Option Nat) (position : Nat) :
    Alternation → List Token
  | .one s => s.linked position
  | .cons s rest =>
    let behind := position + s.width + 1
    s.linked position ++
      .bar start ((rest.firstBar? behind).or stop) :: rest.linked start stop behind

/-- The tokens of a sequence from `position` on, with their links. -/
def Sequence.linked (position : Nat) : Sequence → List Token
  | .nil => []
  | .token t rest => t.1 :: rest.linked (position + 1)
  | .group kind inner rest =>
    let closing := position + 1 + inner.width
    .opening kind (some closing) ::
      (inner.linked (some position) (some closing) (position + 1) ++
        .closing kind (some position) :: rest.linked (closing + 1))

end

mutual

@[simp] theorem Alternation.length_linked (start stop : Option Nat) :
    ∀ (position : Nat) (tree : Alternation),
      (tree.linked start stop position).length = tree.width
  | position, .one s => by
    rw [Alternation.linked, s.length_linked, Alternation.width_one]
  | position, .cons s rest => by
    simp only [Alternation.linked, List.length_append, List.length_cons,
      s.length_linked, rest.length_linked, Alternation.width_cons]
    omega

@[simp] theorem Sequence.length_linked : ∀ (position : Nat) (tree : Sequence),
    (tree.linked position).length = tree.width
  | _, .nil => by simp [Sequence.linked]
  | position, .token t rest => by
    simp only [Sequence.linked, List.length_cons, rest.length_linked,
      Sequence.width_token]
  | position, .group kind inner rest => by
    simp only [Sequence.linked, List.length_append, List.length_cons,
      inner.length_linked, rest.length_linked, Sequence.width_group]
    omega

end

mutual

/-- The links do not change the tokens otherwise. -/
theorem Alternation.unlinked_linked (start stop : Option Nat) :
    ∀ (position : Nat) (tree : Alternation),
      (tree.linked start stop position).map Token.unlinked = tree.tokens
  | position, .one s => by
    rw [Alternation.linked, s.unlinked_linked, Alternation.tokens]
  | position, .cons s rest => by
    simp only [Alternation.linked, List.map_append, List.map_cons, s.unlinked_linked,
      rest.unlinked_linked, Alternation.tokens, Token.unlinked]

theorem Sequence.unlinked_linked : ∀ (position : Nat) (tree : Sequence),
    (tree.linked position).map Token.unlinked = tree.tokens
  | _, .nil => by simp [Sequence.linked, Sequence.tokens]
  | position, .token t rest => by
    simp only [Sequence.linked, List.map_cons, rest.unlinked_linked,
      t.unlinked_eq, Sequence.tokens]
  | position, .group kind inner rest => by
    simp only [Sequence.linked, List.map_append, List.map_cons,
      inner.unlinked_linked, rest.unlinked_linked, Sequence.tokens, Token.unlinked]

end

/-! ## One step of the pass -/

namespace Linking

/-- Where the innermost open group opens. -/
def start (s : Linking) : Option Nat :=
  s.frames.head?.map Frame.opening

/-- The last bar seen directly inside the innermost open group. -/
def lastBar (s : Linking) : Option Nat :=
  match s.frames with
  | [] => s.topBar
  | frame :: _ => frame.lastBar

/-- The state with other tokens. -/
def withTokens (s : Linking) (tokens : List Token) : Linking :=
  { s with tokens := tokens }

/-- The state with another last bar directly inside the innermost open group. -/
def withLastBar (s : Linking) (bar : Option Nat) : Linking :=
  match s.frames with
  | [] => { s with topBar := bar }
  | frame :: outer => { s with frames := { frame with lastBar := bar } :: outer }

section State

variable (s : Linking) (tokens : List Token) (bar : Option Nat)

@[simp] theorem start_withTokens : (s.withTokens tokens).start = s.start := rfl

@[simp] theorem lastBar_withTokens : (s.withTokens tokens).lastBar = s.lastBar := rfl

@[simp] theorem tokens_withTokens : (s.withTokens tokens).tokens = tokens := rfl

@[simp] theorem withTokens_withTokens (tokens' : List Token) :
    (s.withTokens tokens').withTokens tokens = s.withTokens tokens := rfl

@[simp] theorem start_withLastBar : (s.withLastBar bar).start = s.start := by
  obtain ⟨_, frames, _⟩ := s
  cases frames <;> rfl

@[simp] theorem lastBar_withLastBar : (s.withLastBar bar).lastBar = bar := by
  obtain ⟨_, frames, _⟩ := s
  cases frames <;> rfl

@[simp] theorem tokens_withLastBar : (s.withLastBar bar).tokens = s.tokens := by
  obtain ⟨_, frames, _⟩ := s
  cases frames <;> rfl

@[simp] theorem withLastBar_withLastBar (bar' : Option Nat) :
    (s.withLastBar bar').withLastBar bar = s.withLastBar bar := by
  obtain ⟨_, frames, _⟩ := s
  cases frames <;> rfl

theorem withTokens_withLastBar :
    (s.withTokens tokens).withLastBar bar = (s.withLastBar bar).withTokens tokens := by
  obtain ⟨_, frames, _⟩ := s
  cases frames <;> rfl

@[simp] theorem withLastBar_lastBar : s.withLastBar s.lastBar = s := by
  obtain ⟨_, frames, _⟩ := s
  cases frames <;> rfl

end State

theorem step_plain (s : Linking) {token : Token} (h : token.isStructural = false)
    (position : Nat) : s.step token position = .ok s := by
  cases token <;> first | rfl | cases h

theorem step_bar (s : Linking) (a b : Option Nat) (position : Nat) :
    s.step (.bar a b) position =
      .ok ((s.withTokens ((chain s.tokens s.lastBar position).set position
        (.bar s.start none))).withLastBar (some position)) := by
  obtain ⟨_, frames, _⟩ := s
  cases frames <;> rfl

/-! ## The chain of bars -/

/-- Links the last bar of a chain to the first bar of what follows, if both
are there. -/
def linkTo (tokens : List Token) (lastBar firstBar : Option Nat) : List Token :=
  match firstBar with
  | none => tokens
  | some position => chain tokens lastBar position

@[simp] theorem linkTo_none (tokens : List Token) (lastBar : Option Nat) :
    linkTo tokens lastBar none = tokens := rfl

@[simp] theorem chain_none (tokens : List Token) (position : Nat) :
    chain tokens none position = tokens := rfl

theorem linkTo_open_none (tokens : List Token) (firstBar : Option Nat) :
    linkTo tokens none firstBar = tokens := by
  cases firstBar <;> rfl

@[simp] theorem linkTo_some (tokens : List Token) (lastBar : Option Nat) (first : Nat) :
    linkTo tokens lastBar (some first) = chain tokens lastBar first := rfl

theorem modify_append_left {left right : List Token} {i : Nat} {f : Token → Token}
    (h : i < left.length) : (left ++ right).modify i f = left.modify i f ++ right := by
  induction left generalizing i with
  | nil => simp at h
  | cons token left ih =>
    cases i with
    | zero => simp
    | succ i => simp [ih (Nat.lt_of_succ_lt_succ h)]

theorem modify_append_cons (left right : List Token) (token : Token)
    (f : Token → Token) :
    (left ++ token :: right).modify left.length f = left ++ f token :: right := by
  induction left with
  | nil => simp
  | cons _ left ih => simp [ih]

theorem chain_append {left : List Token} {lastBar : Option Nat}
    (h : ∀ b, lastBar = some b → b < left.length) (right : List Token)
    (position : Nat) :
    chain (left ++ right) lastBar position = chain left lastBar position ++ right := by
  cases lastBar with
  | none => rfl
  | some b => exact modify_append_left (h b rfl)

theorem chain_append_bar (left right : List Token) (start next : Option Nat)
    (position : Nat) :
    chain (left ++ .bar start next :: right) (some left.length) position =
      left ++ .bar start (some position) :: right :=
  modify_append_cons left right _ _

@[simp] theorem length_chain (tokens : List Token) (lastBar : Option Nat)
    (position : Nat) : (chain tokens lastBar position).length = tokens.length := by
  cases lastBar <;> simp [chain]

end Linking

/-- The last bar of an alternation, or the one before it when it has none. -/
def Alternation.lastBar (position : Nat) (before : Option Nat) :
    Alternation → Option Nat
  | .one _ => before
  | .cons s rest => rest.lastBar (position + s.width + 1) (some (position + s.width))

open Linking

/-- Linking the last bar of an alternation that leaves it open, or the one
before it when the alternation has no bar. -/
theorem chain_lastBar (start : Option Nat) (stop : Nat) :
    ∀ (tree : Alternation) (before after : List Token) (lastBar : Option Nat),
      (∀ b, lastBar = some b → b < before.length) →
      chain (before ++ (tree.linked start none before.length ++ after))
          (tree.lastBar before.length lastBar) stop =
        (if (tree.firstBar? before.length).isNone then chain before lastBar stop
          else before) ++
          (tree.linked start (some stop) before.length ++ after)
  | .one s, before, after, lastBar, h => by
    simp only [Alternation.lastBar, Alternation.firstBar?_one, Alternation.linked,
      Option.isNone_none, if_true]
    exact chain_append h _ stop
  | .cons s rest, before, after, lastBar, _ => by
    have ih := chain_lastBar start stop rest
      (before ++ s.linked before.length ++
        [.bar start (rest.firstBar? (before.length + s.width + 1))])
      after (some (before.length + s.width)) (by simp)
    have hlen : (before ++ s.linked before.length ++
        [Token.bar start (rest.firstBar? (before.length + s.width + 1))]).length =
          before.length + s.width + 1 := by
      simp [Nat.add_assoc]
    rw [hlen] at ih
    have hcut : before.length + s.width = (before ++ s.linked before.length).length := by
      simp
    simp only [Alternation.lastBar, Alternation.firstBar?_cons, Alternation.linked,
      Option.or_none, List.append_assoc, List.cons_append, List.nil_append] at ih ⊢
    rw [ih]
    cases hfirst : rest.firstBar? (before.length + s.width + 1) with
    | none =>
      have hbar := chain_append_bar (before ++ s.linked before.length) [] start none stop
      rw [← hcut] at hbar
      simp only [List.append_assoc] at hbar
      simp [hbar]
    | some next => simp

/-! ## The pass over a tree -/

theorem exists_bar_of_unlinked {token : Token}
    (h : token.unlinked = .bar none none) : ∃ a b, token = .bar a b := by
  cases token <;> simp_all [Token.unlinked]

theorem exists_opening_of_unlinked {token : Token} {kind : GroupKind}
    (h : token.unlinked = .opening kind none) : ∃ p, token = .opening kind p := by
  cases token <;> simp_all [Token.unlinked]

theorem exists_closing_of_unlinked {token : Token} {kind : GroupKind}
    (h : token.unlinked = .closing kind none) : ∃ p, token = .closing kind p := by
  cases token <;> simp_all [Token.unlinked]

theorem eq_of_unlinked_plain {token : Token} {plain : PlainToken}
    (h : token.unlinked = plain.1) : token = plain.1 := by
  obtain ⟨plain, hplain⟩ := plain
  cases token <;> simp_all [Token.unlinked] <;> subst h <;> cases hplain

namespace Linking

theorem run_cons {s s' : Linking} {token : Token} {position : Nat}
    (h : s.step token position = .ok s') (rest : List Token) :
    s.run position (token :: rest) = s'.run (position + 1) rest := by
  rw [run, h]

/-- The pass reads a bar that stands behind `left`. -/
theorem run_bar (a b : Option Nat) (s : Linking) (left right : List Token)
    (hs : s.tokens = left ++ .bar a b :: right)
    (hlast : ∀ bar, s.lastBar = some bar → bar < left.length) (rest : List Token) :
    s.run left.length (.bar a b :: rest) =
      ((s.withTokens (chain left s.lastBar left.length ++
        .bar s.start none :: right)).withLastBar (some left.length)).run
        (left.length + 1) rest := by
  have hset : (chain s.tokens s.lastBar left.length).set left.length
      (.bar s.start none) =
        chain left s.lastBar left.length ++ .bar s.start none :: right := by
    rw [hs, chain_append hlast, List.set_append_right _ _ (by simp)]
    simp
  rw [run_cons (step_bar s a b _), hset]

/-- The pass reads a closing half of the kind of the innermost open group. -/
theorem step_closing {tokens : List Token} {frame : Frame} {outer : List Frame}
    {topBar : Option Nat} (p : Option Nat) (position : Nat) :
    step ⟨tokens, frame :: outer, topBar⟩ (.closing frame.kind p) position =
      .ok ⟨chain (join tokens frame.opening position) frame.lastBar position,
        outer, topBar⟩ := by
  simp [step]

theorem join_append (before inner after : List Token) (kind : GroupKind)
    (p q : Option Nat) :
    join (before ++ .opening kind p :: (inner ++ .closing kind q :: after))
        before.length (before.length + 1 + inner.length) =
      before ++ .opening kind (some (before.length + 1 + inner.length)) ::
        (inner ++ .closing kind (some before.length) :: after) := by
  have hopen := modify_append_cons before (inner ++ .closing kind q :: after)
    (.opening kind p) (·.withPair (before.length + 1 + inner.length))
  have hclose := modify_append_cons
    (before ++ .opening kind (some (before.length + 1 + inner.length)) :: inner) after
    (.closing kind q) (·.withPair before.length)
  have hlen : (before ++ .opening kind (some (before.length + 1 + inner.length)) ::
      inner).length = before.length + 1 + inner.length := by
    simp only [List.length_append, List.length_cons]
    omega
  rw [hlen] at hclose
  simp only [List.append_assoc, List.cons_append] at hclose
  rw [join, hopen]
  exact hclose

end Linking

mutual

/-- What the pass has done when it has moved over an alternation.  The last bar
before it is linked to its first one, and its own last bar is still open. -/
theorem Alternation.run_tokens : ∀ (tree : Alternation) (ts : List Token),
    ts.map Token.unlinked = tree.tokens →
    ∀ (s : Linking) (before after : List Token),
      s.tokens = before ++ (ts ++ after) →
      (∀ b, s.lastBar = some b → b < before.length) →
      ∀ rest : List Token,
        s.run before.length (ts ++ rest) =
          ((s.withTokens (linkTo before s.lastBar (tree.firstBar? before.length) ++
            (tree.linked s.start none before.length ++ after))).withLastBar
              (tree.lastBar before.length s.lastBar)).run
            (before.length + tree.width) rest
  | .one sequence, ts, hts, s, before, after, hs, _, rest => by
    rw [sequence.run_tokens ts (by rwa [Alternation.tokens] at hts) s before after hs rest]
    simp [Alternation.lastBar, Alternation.linked, withTokens_withLastBar]
  | .cons sequence tree, ts, hts, s, before, after, hs, hlast, rest => by
    rw [Alternation.tokens, List.map_eq_append_iff] at hts
    obtain ⟨first, others, rfl, hfirst, hothers⟩ := hts
    obtain ⟨token, later, rfl, htoken, hlater⟩ := List.map_eq_cons_iff.1 hothers
    obtain ⟨a, b, rfl⟩ := exists_bar_of_unlinked htoken
    -- The pass moves over the first sequence, over the bar, and over the others.
    have hleft : (before ++ sequence.linked before.length).length =
        before.length + sequence.width := by simp
    have hbar := run_bar a b (s.withTokens (before ++ (sequence.linked before.length ++
        .bar a b :: (later ++ after)))) (before ++ sequence.linked before.length)
      (later ++ after) (by simp)
      (fun bar h => by rw [hleft]; have := hlast bar h; omega) (later ++ rest)
    rw [hleft, lastBar_withTokens, start_withTokens, withTokens_withTokens,
      chain_append hlast] at hbar
    have hbehind : (chain before s.lastBar (before.length + sequence.width) ++
        (sequence.linked before.length ++ [Token.bar s.start none])).length =
          before.length + sequence.width + 1 := by
      simp [Nat.add_assoc]
    have hrest := tree.run_tokens later hlater
      ((s.withTokens (chain before s.lastBar (before.length + sequence.width) ++
        (sequence.linked before.length ++ .bar s.start none :: (later ++ after)))).withLastBar
          (some (before.length + sequence.width)))
      (chain before s.lastBar (before.length + sequence.width) ++
        (sequence.linked before.length ++ [.bar s.start none]))
      after (by simp) (by rw [hbehind]; simp) rest
    -- The bar is linked to the first one of the others.
    have hlink := chain_append_bar (chain before s.lastBar
      (before.length + sequence.width) ++ sequence.linked before.length) [] s.start none
    rw [List.length_append, length_chain, Sequence.length_linked] at hlink
    rw [hbehind] at hrest
    rw [List.append_assoc, sequence.run_tokens first hfirst s before
      (.bar a b :: (later ++ after)) (by simpa using hs), List.cons_append, hbar,
      List.append_assoc, hrest]
    simp only [start_withLastBar, start_withTokens, lastBar_withLastBar,
      withTokens_withLastBar, withTokens_withTokens, withLastBar_withLastBar,
      lastBar_withTokens, Alternation.lastBar, Alternation.linked,
      Alternation.firstBar?_cons, linkTo_some, Option.or_none, Alternation.width_cons,
      List.append_assoc, List.cons_append, Nat.add_assoc]
    cases hnext : tree.firstBar? (before.length + (sequence.width + 1)) with
    | none => simp
    | some next =>
      have hlink := hlink next
      simp only [List.append_assoc] at hlink
      simp [hlink]

/-- What the pass has done when it has moved over a sequence. -/
theorem Sequence.run_tokens : ∀ (tree : Sequence) (ts : List Token),
    ts.map Token.unlinked = tree.tokens →
    ∀ (s : Linking) (before after : List Token),
      s.tokens = before ++ (ts ++ after) → ∀ rest : List Token,
        s.run before.length (ts ++ rest) =
          (s.withTokens (before ++ (tree.linked before.length ++ after))).run
            (before.length + tree.width) rest
  | .nil, ts, hts, s, before, after, hs, rest => by
    rw [Sequence.tokens, List.map_eq_nil_iff] at hts
    subst hts
    simp only [List.nil_append] at hs
    simp [Sequence.linked, ← hs, withTokens]
  | .token plain tree, ts, hts, s, before, after, hs, rest => by
    rw [Sequence.tokens] at hts
    obtain ⟨token, later, rfl, htoken, hlater⟩ := List.map_eq_cons_iff.1 hts
    obtain rfl := eq_of_unlinked_plain htoken
    rw [List.cons_append, run_cons (step_plain s plain.2 _)]
    have ih := tree.run_tokens later hlater s (before ++ [plain.1]) after
      (by simpa using hs) rest
    rw [List.length_append, List.length_singleton] at ih
    rw [ih]
    simp only [Sequence.linked, Sequence.width_token, List.append_assoc,
      List.cons_append, List.nil_append]
    congr 1
    omega
  | .group kind inner tree, ts, hts, s, before, after, hs, rest => by
    rw [Sequence.tokens] at hts
    obtain ⟨token, region, rfl, htoken, hregion⟩ := List.map_eq_cons_iff.1 hts
    obtain ⟨p, rfl⟩ := exists_opening_of_unlinked htoken
    obtain ⟨inside, others, rfl, hinside, hothers⟩ := List.map_eq_append_iff.1 hregion
    obtain ⟨token, later, rfl, htoken, hlater⟩ := List.map_eq_cons_iff.1 hothers
    obtain ⟨q, rfl⟩ := exists_closing_of_unlinked htoken
    obtain ⟨tokens, frames, topBar⟩ := s
    obtain rfl : tokens = _ := hs
    have hlen : (before ++ [Token.opening kind p]).length = before.length + 1 := by simp
    -- The inside is read in the frame that the opening half opens.
    have hinner := inner.run_tokens inside hinside
      ⟨before ++ (.opening kind p :: (inside ++ .closing kind q :: later) ++ after),
        ⟨before.length, kind, none⟩ :: frames, topBar⟩
      (before ++ [.opening kind p]) (.closing kind q :: (later ++ after))
      (by simp) (by simp [Linking.lastBar]) (.closing kind q :: (later ++ rest))
    rw [hlen] at hinner
    simp only [Linking.start, Linking.lastBar, linkTo_open_none, List.head?_cons,
      Option.map_some, withTokens, withLastBar] at hinner
    -- The closing half joins the two halves and closes the chain of bars.
    have hjoin := join_append before
      (inner.linked (some before.length) none (before.length + 1)) (later ++ after)
      kind p q
    have hchain := chain_lastBar (some before.length)
      (before.length + 1 + inner.width) inner
      (before ++ [.opening kind (some (before.length + 1 + inner.width))])
      (.closing kind (some before.length) :: (later ++ after)) none (by simp)
    rw [Alternation.length_linked] at hjoin
    simp only [List.length_append, List.length_singleton, chain_none, ite_self,
      List.append_assoc, List.cons_append, List.nil_append] at hchain
    -- The pass goes on behind the group.
    have hrest := tree.run_tokens later hlater
      ⟨before ++ .opening kind (some (before.length + 1 + inner.width)) ::
          (inner.linked (some before.length) (some (before.length + 1 + inner.width))
            (before.length + 1) ++ .closing kind (some before.length) :: (later ++ after)),
        frames, topBar⟩
      (before ++ .opening kind (some (before.length + 1 + inner.width)) ::
        (inner.linked (some before.length) (some (before.length + 1 + inner.width))
          (before.length + 1) ++ [.closing kind (some before.length)]))
      after (by simp) rest
    have hbehind : (before ++ .opening kind (some (before.length + 1 + inner.width)) ::
        (inner.linked (some before.length) (some (before.length + 1 + inner.width))
          (before.length + 1) ++ [Token.closing kind (some before.length)])).length =
        before.length + 1 + inner.width + 1 := by
      simp only [List.length_append, List.length_cons, Alternation.length_linked,
        List.length_nil]
      omega
    rw [hbehind] at hrest
    have hopen : step ⟨before ++ (.opening kind p ::
        (inside ++ .closing kind q :: later) ++ after), frames, topBar⟩
          (.opening kind p) before.length =
        .ok ⟨before ++ (.opening kind p :: (inside ++ .closing kind q :: later) ++ after),
          ⟨before.length, kind, none⟩ :: frames, topBar⟩ := rfl
    have hread : .opening kind p :: (inside ++ .closing kind q :: later) ++ rest =
        .opening kind p :: (inside ++ .closing kind q :: (later ++ rest)) := by simp
    rw [hread, run_cons hopen, hinner]
    simp only [List.append_assoc, List.cons_append, List.nil_append]
    rw [run_cons (step_closing q _)]
    simp only [hjoin, hchain, hrest]
    simp only [Sequence.linked, Sequence.width_group, withTokens, List.append_assoc,
      List.cons_append, List.nil_append]
    congr 1
    omega

end

/-- Balancing a grammar that can be read as a tree gives the links of the tree,
whatever links it had before. -/
theorem Grammar.balance_of_tree {g : Grammar} {tree : Alternation}
    (h : g.tokens.map Token.unlinked = tree.tokens) :
    g.balance = .ok ⟨tree.linked none none 0⟩ := by
  have hrun := tree.run_tokens g.tokens h ⟨g.tokens, [], none⟩ [] [] (by simp)
    (by simp [Linking.lastBar]) []
  simp only [List.append_nil, List.nil_append, List.length_nil, Linking.start,
    Linking.lastBar, linkTo_open_none, List.head?_nil, Option.map_none,
    Linking.withTokens, Linking.withLastBar] at hrun
  rw [balance, link, hrun]
  rfl

end Synopsis
