import Synopsis.Proofs.Faults
import Synopsis.Proofs.Sections

/-!
# Alternatives hold elements

An alternative is what stands between two of the bars of a group, or between such a bar
and the end of the group.  The reader compares each token with the one before it only,
and `Behind` says what it lets through.  So behind the start of an alternative stands an
element, or a group opens there.

A group opens an alternative of its own, which is shorter.  The induction on the length
of an alternative therefore comes down to an element (`exists_element`), as long as the
groups nest.  `alternatives_hold_elements` is the result for the forms of a usage section.
-/

namespace Synopsis

/-! ## Alternatives of a token sequence -/

/-- The token sequences that nest and have no bar outside their groups. -/
inductive Sequential : List Token → Prop
  | nil : Sequential []
  | plain {token : Token} {rest : List Token} (h : token.isStructural = false)
      (hrest : Sequential rest) : Sequential (token :: rest)
  | group {kind : GroupKind} {p q : Option Nat} {inner rest : List Token}
      (hinner : WellNested inner) (hrest : Sequential rest) :
      Sequential (.opening kind p :: (inner ++ .closing kind q :: rest))

/-- What an alternative starts behind: nothing at all, an opening half, or a bar. -/
inductive StartsAlternative : Option Token → Prop
  | whole : StartsAlternative none
  | opening (kind : GroupKind) (p : Option Nat) : StartsAlternative (some (.opening kind p))
  | bar (start next : Option Nat) : StartsAlternative (some (.bar start next))

/-- What an alternative ends before: nothing at all, a closing half, or a bar. -/
inductive EndsAlternative : Option Token → Prop
  | whole : EndsAlternative none
  | closing (kind : GroupKind) (p : Option Nat) : EndsAlternative (some (.closing kind p))
  | bar (start next : Option Nat) : EndsAlternative (some (.bar start next))

/-- The sequence between an end of an alternative and the next end of the same group. -/
def IsAlternative (ts part : List Token) : Prop :=
  ∃ before after, ts = before ++ (part ++ after) ∧ Sequential part ∧
    StartsAlternative before.getLast? ∧ EndsAlternative after.head?

/-- What nests starts with its first alternative. -/
theorem WellNested.exists_sequential {ts : List Token} (h : WellNested ts) :
    ∃ part rest, ts = part ++ rest ∧ Sequential part ∧
      (rest = [] ∨ ∃ start next later, rest = .bar start next :: later) := by
  induction h with
  | nil => exact ⟨[], [], rfl, .nil, Or.inl rfl⟩
  | plain h _ ih =>
    obtain ⟨part, rest, rfl, hpart, hrest⟩ := ih
    exact ⟨_ :: part, rest, rfl, .plain h hpart, hrest⟩
  | bar _ _ => exact ⟨[], _, rfl, .nil, Or.inr ⟨_, _, _, rfl⟩⟩
  | @group kind p q inner _ hinner _ _ ih =>
    obtain ⟨part, rest, rfl, hpart, hrest⟩ := ih
    refine ⟨.opening kind p :: (inner ++ .closing kind q :: part), rest, ?_,
      .group hinner hpart, hrest⟩
    simp

/-- The inside of a group starts with an alternative. -/
theorem isAlternative_of_group (before after : List Token) (kind : GroupKind)
    (p q : Option Nat) {inner : List Token} (hinner : WellNested inner) :
    ∃ part, IsAlternative (before ++ .opening kind p :: (inner ++ .closing kind q :: after))
        part ∧ part <+: inner := by
  obtain ⟨part, rest, rfl, hpart, hrest⟩ := hinner.exists_sequential
  refine ⟨part, ⟨before ++ [.opening kind p], rest ++ .closing kind q :: after, by simp,
    hpart, ?_, ?_⟩, List.prefix_append part rest⟩
  · rw [List.getLast?_concat]
    exact .opening kind p
  · rcases hrest with rfl | ⟨start, next, later, rfl⟩
    · exact .closing kind q
    · exact .bar start next

theorem WellNested.head?_ne_closing {ts : List Token} (h : WellNested ts) (kind : GroupKind)
    (p : Option Nat) : ts.head? ≠ some (.closing kind p) := by
  intro hhead
  cases h with
  | nil => simp at hhead
  | plain h _ =>
    simp only [List.head?_cons, Option.some.injEq] at hhead
    subst hhead
    cases h
  | bar => simp at hhead
  | group => simp at hhead

theorem WellNested.getLast?_ne_opening {ts : List Token} (h : WellNested ts)
    (kind : GroupKind) (p : Option Nat) : ts.getLast? ≠ some (.opening kind p) := by
  induction h with
  | nil => simp
  | @plain token rest h _ ih =>
    cases rest with
    | nil =>
      intro hlast
      simp only [List.getLast?_singleton, Option.some.injEq] at hlast
      subst hlast
      cases h
    | cons next later => simpa using ih
  | @bar _ _ rest _ ih =>
    cases rest with
    | nil => simp
    | cons next later => simpa using ih
  | @group kind' p' q inner rest _ _ _ ih =>
    have hlast : (Token.opening kind' p' :: (inner ++ .closing kind' q :: rest)).getLast? =
        (Token.closing kind' q :: rest).getLast? := by
      rw [← List.cons_append, List.getLast?_append]
      cases hlast : (Token.closing kind' q :: rest).getLast? with
      | none => cases List.getLast?_eq_none_iff.1 hlast
      | some last => rfl
    rw [hlast]
    cases rest with
    | nil => simp
    | cons next later => simpa using ih

/-! ## Elements of alternatives -/

/-- Behind the start of each alternative stands an element, or a group opens there.  At
the start of the whole sequence a group may also close; it does not when groups nest. -/
def Founded (ts : List Token) : Prop :=
  ∀ before token after, ts = before ++ token :: after → StartsAlternative before.getLast? →
    token.isElement = true ∨ (∃ kind p, token = .opening kind p) ∨
      before = [] ∧ ∃ kind p, token = .closing kind p

/-- What ends an alternative does not stand behind the start of one. -/
theorem Founded.ne_nil {ts before part after : List Token} (hfounded : Founded ts)
    (hts : WellNested ts) (hlast : ∀ start next, ts.getLast? ≠ some (.bar start next))
    (hsplit : ts = before ++ (part ++ after)) (hstart : StartsAlternative before.getLast?)
    (hend : EndsAlternative after.head?) (hne : ts ≠ []) : part ≠ [] := by
  intro hnil
  subst hnil
  rw [List.nil_append] at hsplit
  cases after with
  | nil =>
    rw [List.append_nil] at hsplit
    subst hsplit
    generalize hget : ts.getLast? = last at hstart
    cases hstart with
    | whole => exact hne (List.getLast?_eq_none_iff.1 hget)
    | opening kind p => exact hts.getLast?_ne_opening kind p hget
    | bar start next => exact hlast start next hget
  | cons token later =>
    have hfirst := hfounded before token later hsplit hstart
    rw [List.head?_cons] at hend
    cases hend with
    | closing kind p =>
      rcases hfirst with helement | ⟨_, _, hopening⟩ | ⟨rfl, _⟩
      · cases helement
      · cases hopening
      · subst hsplit
        exact hts.head?_ne_closing kind p rfl
    | bar start next =>
      rcases hfirst with helement | ⟨_, _, hopening⟩ | ⟨_, _, _, hclosing⟩
      · cases helement
      · cases hopening
      · cases hclosing

/-- Every alternative of a sequence that nests and is founded holds an element, unless
the sequence is empty. -/
theorem Founded.exists_element {ts : List Token} (hfounded : Founded ts)
    (hts : WellNested ts) (hlast : ∀ start next, ts.getLast? ≠ some (.bar start next))
    (hne : ts ≠ []) {part : List Token} (h : IsAlternative ts part) :
    ∃ token ∈ part, token.isElement = true := by
  generalize hn : part.length = n
  induction n using Nat.strongRecOn generalizing part with
  | ind n ih =>
    subst hn
    obtain ⟨before, after, hsplit, hpart, hstart, hend⟩ := h
    have hnonempty := hfounded.ne_nil hts hlast hsplit hstart hend hne
    cases hpart with
    | nil => exact absurd rfl hnonempty
    | @plain token rest hplain _ =>
      rcases hfounded before token (rest ++ after) hsplit hstart with helement |
        ⟨kind, p, rfl⟩ | ⟨_, kind, p, rfl⟩
      · exact ⟨token, List.mem_cons_self, helement⟩
      · cases hplain
      · cases hplain
    | @group kind p q inner rest hinner _ =>
      -- The group that opens here starts with an alternative of its own.
      obtain ⟨first, hfirst, hstarts⟩ :=
        isAlternative_of_group before (rest ++ after) kind p q hinner
      have hshape : ts = before ++ .opening kind p ::
          (inner ++ .closing kind q :: (rest ++ after)) := by simpa using hsplit
      rw [← hshape] at hfirst
      have hle := hstarts.length_le
      have hlt : first.length <
          (Token.opening kind p :: (inner ++ .closing kind q :: rest)).length := by
        simp only [List.length_cons, List.length_append]
        omega
      obtain ⟨token, htoken, helement⟩ := ih first.length hlt hfirst rfl
      have hmem : token ∈ inner := hstarts.mem htoken
      exact ⟨token, by simp [hmem], helement⟩

/-! ## What the reader lets through -/

namespace Usage

/-- How a token of a form stands behind the token before it: it is not misplaced there,
or one of the two is a separator between items. -/
inductive Behind : Option Token → Token → Prop
  | fits {previous : Option Token} {token : Token} (h : misplaced? previous token = none)
      (hprevious : previous ≠ some .separator) (htoken : token ≠ .separator) :
      Behind previous token
  | gap {previous : Token} (h : endsItem previous = true) :
      Behind (some previous) .separator
  | spaced {token : Token} (h : startsItem token = true) : Behind (some .separator) token

theorem behind_laid {previous : Option Token} {xs : List ScannedToken} (h : Fits previous xs)
    (hprevious : previous ≠ some .separator) (hxs : ∀ x ∈ xs, x.token ≠ .separator)
    {before after : List Token} {token : Token}
    (hsplit : laid previous xs = before ++ token :: after) :
    Behind (before.getLast?.or previous) token := by
  induction h generalizing before with
  | nil => simp [laid] at hsplit
  | @cons previous x xs hfits _ ih =>
    have hx : x.token ≠ .separator := hxs x List.mem_cons_self
    have hlater := @ih (by simpa using hx) fun y hy => hxs y (List.mem_cons_of_mem x hy)
    have hplace : ∀ rest : List Token, (x.token :: rest).getLast?.or previous =
        rest.getLast?.or (some x.token) := by
      intro rest
      rw [List.getLast?_cons]
      cases rest.getLast? <;> rfl
    rw [laid, laidOne] at hsplit
    split at hsplit
    · rename_i hgap
      simp only [Bool.and_eq_true, separates, Option.any_eq_true] at hgap
      obtain ⟨_, ⟨p, rfl, hends⟩, hstarts⟩ := hgap
      rcases before with _ | ⟨first, _ | ⟨second, before⟩⟩
      all_goals
        simp only [List.cons_append, List.nil_append, List.cons.injEq] at hsplit
      · obtain ⟨rfl, -⟩ := hsplit
        exact .gap hends
      · obtain ⟨rfl, rfl, -⟩ := hsplit
        exact .spaced hstarts
      · obtain ⟨rfl, rfl, hsplit⟩ := hsplit
        have hbehind := hlater hsplit
        rw [← hplace before] at hbehind
        simpa using hbehind
    · rcases before with _ | ⟨first, before⟩
      all_goals
        simp only [List.cons_append, List.nil_append, List.cons.injEq] at hsplit
      · obtain ⟨rfl, -⟩ := hsplit
        exact .fits hfits hprevious hx
      · obtain ⟨rfl, hsplit⟩ := hsplit
        rw [hplace before]
        exact hlater hsplit

/-- Each token of a form stands behind the one before it as the reader lets it. -/
theorem Source.behind {g : Grammar} {xs : List ScannedToken} (h : Source g xs)
    {before after : List Token} {token : Token} (hsplit : g.tokens = before ++ token :: after) :
    Behind before.getLast? token := by
  obtain ⟨rest, hfollows⟩ := h.follows
  have hbehind := behind_laid h.fits (by simp) hfollows.token_ne_separator
    (h.tokens.symm.trans hsplit)
  rwa [Option.or_none] at hbehind

/-- What the reader lets stand behind the start of an alternative. -/
theorem Behind.of_start {previous : Option Token} {token : Token} (h : Behind previous token)
    (hstart : StartsAlternative previous) :
    token.isElement = true ∨ (∃ kind p, token = .opening kind p) ∨
      previous = none ∧ ∃ kind p, token = .closing kind p := by
  cases h with
  | gap hends => cases hstart <;> cases hends
  | spaced => cases hstart
  | fits h _ hseparator =>
    cases token with
    | separator => exact absurd rfl hseparator
    | word | option | positional => exact Or.inl rfl
    | opening kind p => exact Or.inr (Or.inl ⟨kind, p, rfl⟩)
    | closing kind p =>
      cases hstart with
      | whole => exact Or.inr (Or.inr ⟨rfl, kind, p, rfl⟩)
      | opening | bar => cases h
    | bar | ellipsis => cases hstart <;> cases h

theorem Source.founded {g : Grammar} {xs : List ScannedToken} (h : Source g xs) :
    Founded g.tokens := by
  intro before token after hsplit hstart
  rcases (h.behind hsplit).of_start hstart with helement | hopening | ⟨hnone, hclosing⟩
  · exact Or.inl helement
  · exact Or.inr (Or.inl hopening)
  · exact Or.inr (Or.inr ⟨List.getLast?_eq_none_iff.1 hnone, hclosing⟩)

/-! ## The forms of a section -/

/-- In a form of a usage section that can be balanced, every alternative of every group,
and every alternative outside all groups, holds an element.  The only exception is a form
without any token.  So every group holds an element. -/
theorem alternatives_hold_elements {text : String} {usage : Usage}
    (h : parse text = .ok usage) {g : Grammar} (hg : g ∈ usage.variants) {linked : Grammar}
    (hbalance : g.balance = .ok linked) :
    (∀ part, IsAlternative g.tokens part →
      g.tokens = [] ∨ ∃ token ∈ part, token.isElement = true) ∧
      ∀ i j, Mates g.tokens i j →
        ∃ k token, i < k ∧ k < j ∧ g.tokens[k]? = some token ∧ token.isElement = true := by
  obtain ⟨⟨xs, hsource⟩, hlast⟩ := (exists_source h).2 g hg
  have hnested := Grammar.wellNested_of_balance hbalance
  have helement : ∀ part, g.tokens ≠ [] → IsAlternative g.tokens part →
      ∃ token ∈ part, token.isElement = true := fun part hne hpart =>
    hsource.founded.exists_element hnested hlast hne hpart
  refine ⟨fun part hpart => ?_, ?_⟩
  · by_cases hempty : g.tokens = []
    · exact Or.inl hempty
    · exact Or.inr (helement part hempty hpart)
  · rintro i j ⟨before, inner, after, kind, p, q, htokens, hinner, rfl, rfl⟩
    obtain ⟨part, hpart, hstarts⟩ := isAlternative_of_group before after kind p q hinner
    rw [← htokens] at hpart
    obtain ⟨token, htoken, hkind⟩ := helement part (by simp [htokens]) hpart
    obtain ⟨k, hk, hget⟩ := List.getElem_of_mem (hstarts.mem htoken)
    refine ⟨before.length + (k + 1), token, by omega, by omega, ?_, hkind⟩
    rw [htokens, List.getElem?_append_right (by omega)]
    simp [List.getElem?_append_left hk, List.getElem?_eq_getElem hk, hget]

/-- `a | [ -v | c ]` over two lines: its first alternative and its group hold an element. -/
theorem alternatives_of_nested_bars :
    (∃ token ∈ [Token.word "a"], token.isElement = true) ∧
      ∃ k token, 2 < k ∧ k < 6 ∧ [Token.word "a", .bar none none, .opening .optional none,
        .option "-v" none, .bar none none, .word "c", .closing .optional none][k]? =
          some token ∧ token.isElement = true := by
  have hparse : parse "prog a | [ -v |\n  c ]" = .ok ⟨"prog", [⟨[.word "a", .bar none none,
      .opening .optional none, .option "-v" none, .bar none none, .word "c",
      .closing .optional none]⟩]⟩ := by
    with_unfolding_all rfl
  have hbalance : Grammar.balance ⟨[.word "a", .bar none none, .opening .optional none,
      .option "-v" none, .bar none none, .word "c", .closing .optional none]⟩ =
      .ok ⟨[.word "a", .bar none none, .opening .optional (some 6), .option "-v" none,
        .bar (some 2) (some 6), .word "c", .closing .optional (some 2)]⟩ := rfl
  have h := alternatives_hold_elements hparse List.mem_cons_self hbalance
  constructor
  · have hpart := h.1 [.word "a"] ⟨[], _, rfl, .plain rfl .nil, .whole, .bar none none⟩
    exact hpart.resolve_left (by simp)
  · refine h.2 2 6 ⟨[.word "a", .bar none none], [.option "-v" none, .bar none none,
      .word "c"], [], .optional, none, none, rfl, ?_, rfl, rfl⟩
    exact .plain rfl (.bar (.plain rfl .nil))

end Usage

end Synopsis
