import Synopsis.Proofs.Expansion
import Synopsis.Proofs.Faults
import Synopsis.Proofs.Sections

/-!
# Repeats with nothing to repeat

An ellipsis applies when it stands directly behind an element.  In a usage line it
stands directly behind an element or behind a group (`Repeatable`), because the reader
refuses it anywhere else.  Behind a group that is not enough: what is left of the group
may be empty, or end with a separator or with another ellipsis.

`anchored` checks the groups that have an ellipsis directly behind them, and
`repeats_apply_iff` says that this is exactly what decides whether every ellipsis of
every variant applies.  `repeats_apply_fails` shows that the check can fail.
-/

namespace Synopsis

/-- Every ellipsis stands directly behind an element. -/
def RepeatsApply (g : Grammar) : Prop :=
  ∀ before after, g.tokens = before ++ .ellipsis :: after →
    ∃ init token, before = init ++ [token] ∧ token.isElement = true

/-! ## Ellipses of a token sequence -/

/-- Every ellipsis stands directly behind an element.  `element` says whether one
stands directly before the sequence. -/
def EllipsesApply : Bool → List Token → Prop
  | _, [] => True
  | element, token :: rest =>
    (token = .ellipsis → element = true) ∧ EllipsesApply token.isElement rest

/-- Whether an element stands directly behind a sequence. -/
def endsInElement (element : Bool) (tokens : List Token) : Bool :=
  tokens.foldl (fun _ token => token.isElement) element

theorem ellipsesApply_append (element : Bool) (xs ys : List Token) :
    EllipsesApply element (xs ++ ys) ↔
      EllipsesApply element xs ∧ EllipsesApply (endsInElement element xs) ys := by
  induction xs generalizing element with
  | nil => simp [EllipsesApply, endsInElement]
  | cons token xs ih => simp [EllipsesApply, endsInElement, ih, and_assoc]

theorem repeatsApply_iff (g : Grammar) : RepeatsApply g ↔ EllipsesApply false g.tokens := by
  obtain ⟨tokens⟩ := g
  constructor
  · intro h
    suffices hsuffix : ∀ before ts, tokens = before ++ ts →
        EllipsesApply (endsInElement false before) ts from hsuffix [] tokens rfl
    intro before ts
    induction ts generalizing before with
    | nil => exact fun _ => trivial
    | cons token ts ih =>
      intro hsplit
      refine ⟨fun hellipsis => ?_, ?_⟩
      · subst hellipsis
        obtain ⟨init, last, rfl, hlast⟩ := h before ts hsplit
        simpa [endsInElement] using hlast
      · have hlater := ih (before ++ [token]) (by simpa using hsplit)
        simpa [endsInElement] using hlater
  · intro h before after hsplit
    have hsplit : tokens = before ++ .ellipsis :: after := hsplit
    have h : EllipsesApply false tokens := h
    rw [hsplit, ellipsesApply_append] at h
    have hends : endsInElement false before = true := h.2.1 rfl
    rcases List.eq_nil_or_concat before with rfl | ⟨init, last, rfl⟩
    · simp [endsInElement] at hends
    · exact ⟨init, last, by simp, by simpa [endsInElement] using hends⟩

/-! ## Compaction keeps ellipses in their place -/

theorem ellipsesApply_spaced (tokens : List Token) :
    (EllipsesApply false (spaced tokens) ↔ EllipsesApply false tokens) ∧
      ∀ element, EllipsesApply element (continued tokens) ↔ EllipsesApply element tokens := by
  induction tokens with
  | nil => simp [spaced, runs, continued, EllipsesApply, List.intercalate]
  | cons token tokens ih =>
    cases hsep : token.isSeparator with
    | true =>
      obtain rfl : token = .separator := by cases token <;> simp_all [Token.isSeparator]
      have hskip : ∀ element, EllipsesApply element (.separator :: tokens) ↔
          EllipsesApply false tokens := fun element => by
        simp [EllipsesApply, Token.isElement]
      refine ⟨?_, fun element => ?_⟩
      · rw [hskip, ← ih.1, spaced_separator]
      · rw [hskip, ← ih.1, continued_separator_eq]
        by_cases hempty : spaced tokens = []
        · simp [hempty, EllipsesApply]
        · simp [hempty, EllipsesApply, Token.isElement]
    | false =>
      rw [spaced_cons hsep, continued_cons hsep]
      simp [EllipsesApply, ih.2]

/-! ## Ellipses of a usage line -/

/-- Every ellipsis stands directly behind an element or a group. -/
def Repeatable : Option Token → List Token → Prop
  | _, [] => True
  | previous, token :: rest =>
    (token = .ellipsis → ∃ p, previous = some p ∧
      (p.isElement = true ∨ ∃ kind q, p = .closing kind q)) ∧
      Repeatable (some token) rest

theorem Repeatable.of_append {previous : Option Token} {xs ys : List Token} {token : Token}
    (h : Repeatable previous (xs ++ token :: ys)) :
    Repeatable previous xs ∧ Repeatable (some token) ys := by
  induction xs generalizing previous with
  | nil => exact ⟨trivial, h.2⟩
  | cons x xs ih => exact ⟨⟨h.1, (ih h.2).1⟩, (ih h.2).2⟩

theorem Repeatable.unlinked {previous : Option Token} {tokens : List Token}
    (h : Repeatable previous tokens) :
    Repeatable (previous.map Token.unlinked) (tokens.map Token.unlinked) := by
  induction tokens generalizing previous with
  | nil => trivial
  | cons token tokens ih =>
    refine ⟨fun hellipsis => ?_, ih h.2⟩
    have htoken : token = .ellipsis := by
      cases token <;> simp_all [Token.unlinked]
    obtain ⟨p, rfl, hp⟩ := h.1 htoken
    refine ⟨p.unlinked, rfl, ?_⟩
    rcases hp with hp | ⟨kind, q, rfl⟩
    · left
      cases p <;> first | rfl | cases hp
    · exact Or.inr ⟨kind, none, rfl⟩

namespace Usage

/-- What the reader accepts in front of an ellipsis. -/
theorem repeatable_of_misplaced? {previous : Option Token}
    (h : misplaced? previous .ellipsis = none) (hsep : previous ≠ some .separator) :
    ∃ p, previous = some p ∧ (p.isElement = true ∨ ∃ kind q, p = .closing kind q) := by
  cases previous with
  | none => cases h
  | some p =>
    refine ⟨p, rfl, ?_⟩
    cases p with
    | separator => exact absurd rfl hsep
    | word name => exact Or.inl rfl
    | option name value => exact Or.inl rfl
    | positional placeholder => exact Or.inl rfl
    | opening kind q => cases h
    | closing kind q => exact Or.inr ⟨kind, q, rfl⟩
    | bar start next => cases h
    | ellipsis => cases h

theorem repeatable_laid {previous : Option Token} {xs : List ScannedToken}
    (h : Fits previous xs) (hsep : previous ≠ some .separator)
    (hxs : ∀ x ∈ xs, x.token ≠ .separator) : Repeatable previous (laid previous xs) := by
  induction h with
  | nil => trivial
  | @cons previous x xs h _ ih =>
    have hx : x.token ≠ .separator := hxs x (by simp)
    have hlater := ih (by simpa using hx) fun y hy => hxs y (by simp [hy])
    rw [laid, laidOne]
    split
    · rename_i hgap
      have hstarts : startsItem x.token = true := by
        simp only [separates, Bool.and_eq_true] at hgap
        exact hgap.2.2
      refine ⟨by simp, fun hellipsis => ?_, hlater⟩
      rw [hellipsis] at hstarts
      cases hstarts
    · refine ⟨fun hellipsis => ?_, hlater⟩
      rw [hellipsis] at h
      exact repeatable_of_misplaced? h hsep

/-- Every ellipsis of a variant of a usage section stands directly behind an element
or a group. -/
theorem Source.repeatable {g : Grammar} {xs : List ScannedToken} (h : Source g xs) :
    Repeatable none g.tokens := by
  obtain ⟨rest, hfollows⟩ := h.follows
  rw [h.tokens]
  exact repeatable_laid h.fits (by simp) hfollows.token_ne_separator

end Usage

/-! ## Groups with an ellipsis behind them -/

mutual

/-- Each choice of a group that has an ellipsis directly behind it leaves an element
directly before that ellipsis.  `element` says whether an element stands directly
before the alternation. -/
def Alternation.anchored : Alternation → Bool → Bool
  | .one s, element => s.anchored element
  | .cons s rest, element => s.anchored element && rest.anchored element

/-- The same of a sequence. -/
def Sequence.anchored : Sequence → Bool → Bool
  | .nil, _ => true
  | .token t rest, _ => rest.anchored t.1.isElement
  | .group kind inner (.token ⟨.ellipsis, _⟩ rest), element =>
    inner.anchored element && inner.choices.all (endsInElement element) &&
      rest.anchored false && (kind == .required || rest.anchored element)
  | .group kind inner rest, element =>
    inner.anchored element &&
      inner.choices.all (fun choice => rest.anchored (endsInElement element choice)) &&
      (kind == .required || rest.anchored element)

end

theorem Sequence.anchored_group_ellipsis (kind : GroupKind) (inner : Alternation)
    (rest : Sequence) (element : Bool) :
    (Sequence.group kind inner (.token .ellipsis rest)).anchored element =
      (inner.anchored element && inner.choices.all (endsInElement element) &&
        rest.anchored false && (kind == .required || rest.anchored element)) := rfl

theorem forall_products_iff {xs ys : List (List Token)} (hys : ys ≠ []) (element : Bool) :
    (∀ c ∈ products xs ys, EllipsesApply element c) ↔
      (∀ x ∈ xs, EllipsesApply element x) ∧
        ∀ x ∈ xs, ∀ y ∈ ys, EllipsesApply (endsInElement element x) y := by
  simp only [products, List.mem_flatMap, List.mem_map, forall_exists_index, and_imp]
  constructor
  · intro h
    have happly := fun x hx y hy => (ellipsesApply_append element x y).1 (h _ x hx y hy rfl)
    obtain ⟨y, hy⟩ := List.exists_mem_of_ne_nil _ hys
    exact ⟨fun x hx => (happly x hx y hy).1, fun x hx y hy => (happly x hx y hy).2⟩
  · rintro ⟨hxs, hlater⟩ _ x hx y hy rfl
    exact (ellipsesApply_append element x y).2 ⟨hxs x hx, hlater x hx y hy⟩

theorem forall_omissions_iff {kind : GroupKind} {cs : List (List Token)} {element : Bool} :
    (∀ c ∈ kind.omissions cs, EllipsesApply element c) ↔
      kind = .required ∨ ∀ c ∈ cs, EllipsesApply element c := by
  cases kind <;> simp [GroupKind.omissions]

/-- The token opens a group or an alternative, so no ellipsis can stand behind it. -/
def Opens (previous : Option Token) : Prop :=
  ∀ p, previous = some p → p.isElement = false ∧ ∀ kind q, p ≠ .closing kind q

theorem not_ellipsis_of_opens {previous : Option Token} (h : Opens previous)
    {rest : Sequence} : ¬ Repeatable previous (Sequence.token .ellipsis rest).tokens := by
  rw [Sequence.tokens]
  intro hrepeatable
  obtain ⟨p, hp, helement | ⟨kind, q, hclosing⟩⟩ := hrepeatable.1 rfl
  · rw [(h p hp).1] at helement
    cases helement
  · exact (h p hp).2 kind q hclosing

mutual

/-- The check of an alternation decides whether the ellipses of all its choices
apply. -/
theorem Alternation.ellipsesApply_iff : ∀ (tree : Alternation) (element : Bool)
    (previous : Option Token), Repeatable previous tree.tokens → Opens previous →
    ((∀ c ∈ tree.choices, EllipsesApply element c) ↔ tree.anchored element = true)
  | .one s, element, previous, h, hopens => by
    rw [Alternation.tokens] at h
    rw [Alternation.choices, Alternation.anchored]
    exact s.ellipsesApply_iff element previous h
      fun ⟨rest, hs⟩ => absurd (hs ▸ h) (not_ellipsis_of_opens hopens)
  | .cons s rest, element, previous, h, hopens => by
    rw [Alternation.tokens] at h
    obtain ⟨hs, hrest⟩ := h.of_append
    have hbar : Opens (some (.bar none none)) := by simp [Opens, Token.isElement]
    have ihs := s.ellipsesApply_iff element previous hs
      fun ⟨rest, heq⟩ => absurd (heq ▸ hs) (not_ellipsis_of_opens hopens)
    have ihrest := rest.ellipsesApply_iff element _ hrest hbar
    rw [Alternation.choices, Alternation.anchored, List.forall_mem_append, ihs, ihrest,
      Bool.and_eq_true]

/-- The same of a sequence, which an ellipsis can start when an element stands
before it. -/
theorem Sequence.ellipsesApply_iff : ∀ (tree : Sequence) (element : Bool)
    (previous : Option Token), Repeatable previous tree.tokens →
    ((∃ rest, tree = .token .ellipsis rest) → element = true) →
    ((∀ c ∈ tree.choices, EllipsesApply element c) ↔ tree.anchored element = true)
  | .nil, element, previous, _, _ => by
    simp [Sequence.choices, Sequence.anchored, EllipsesApply]
  | .token t rest, element, previous, h, hfirst => by
    rw [Sequence.tokens] at h
    have hrest := rest.ellipsesApply_iff t.1.isElement (some t.1) h.2 (by
      rintro ⟨later, rfl⟩
      rw [Sequence.tokens] at h
      obtain ⟨p, hp, helement | ⟨kind, q, hclosing⟩⟩ := h.2.1 rfl
      · obtain rfl := Option.some.inj hp
        exact helement
      · have hplain := t.2
        rw [Option.some.inj hp, hclosing] at hplain
        cases hplain)
    have hellipsis : t.1 = .ellipsis → element = true := fun ht =>
      hfirst ⟨rest, by rw [show t = PlainToken.ellipsis from Subtype.ext ht]⟩
    rw [Sequence.choices, Sequence.anchored, products_singleton, ← hrest]
    simp only [List.forall_mem_map, List.singleton_append, EllipsesApply]
    exact ⟨fun hc c hmem => (hc c hmem).2, fun hc c hmem => ⟨hellipsis, hc c hmem⟩⟩
  | .group kind inner rest, element, previous, h, _ => by
    rw [Sequence.tokens] at h
    obtain ⟨hinner, hrest⟩ := h.2.of_append
    have hopening : Opens (some (.opening kind none)) := by simp [Opens, Token.isElement]
    have ihinner := inner.ellipsesApply_iff element _ hinner hopening
    rw [Sequence.choices_group, List.forall_mem_append, forall_omissions_iff]
    rcases rest.ellipsis_or_not with ⟨rest, rfl⟩ | ⟨hdrop, hne⟩
    · -- The ellipsis behind the group repeats what is left of the group.
      rw [Sequence.tokens] at hrest
      have hstart : Opens (some Token.ellipsis) := by simp [Opens, Token.isElement]
      have ihrest := fun element => rest.ellipsesApply_iff element _ hrest.2
        fun ⟨later, heq⟩ => absurd (heq ▸ hrest.2) (not_ellipsis_of_opens hstart)
      have hbehind : ∀ b, (∀ y ∈ (Sequence.token .ellipsis rest).choices,
          EllipsesApply b y) ↔ b = true ∧ rest.anchored false = true := by
        intro b
        obtain ⟨c, hc⟩ := List.exists_mem_of_ne_nil _ rest.choices_ne_nil
        rw [Sequence.choices, products_singleton, ← ihrest]
        simp only [List.forall_mem_map, List.singleton_append, EllipsesApply]
        exact ⟨fun h => ⟨(h c hc).1 rfl, fun y hy => (h y hy).2⟩,
          fun h y hy => ⟨fun _ => h.1, h.2 y hy⟩⟩
      obtain ⟨x, hx⟩ := List.exists_mem_of_ne_nil _ inner.choices_ne_nil
      have hdrop : (Sequence.token .ellipsis rest).dropEllipsis = rest := rfl
      rw [hdrop, forall_products_iff (Sequence.choices_ne_nil _), ihrest, ihinner,
        Sequence.anchored_group_ellipsis]
      simp only [hbehind, Bool.and_eq_true, Bool.or_eq_true, beq_iff_eq, List.all_eq_true]
      constructor
      · rintro ⟨homit, hin, hlater⟩
        exact ⟨⟨⟨hin, fun c hc => (hlater c hc).1⟩, (hlater x hx).2⟩, homit⟩
      · rintro ⟨⟨⟨hin, hends⟩, hlater⟩, homit⟩
        exact ⟨homit, hin, fun c hc => ⟨hends c hc, hlater⟩⟩
    · have ihrest := fun element => rest.ellipsesApply_iff element _ hrest
        fun ⟨later, heq⟩ => absurd heq (hne later)
      rw [hdrop, forall_products_iff rest.choices_ne_nil, ihrest, ihinner, Sequence.anchored]
      · simp only [ihrest, Bool.and_eq_true, Bool.or_eq_true, beq_iff_eq, List.all_eq_true]
        constructor
        · rintro ⟨homit, hin, hlater⟩
          exact ⟨⟨hin, hlater⟩, homit⟩
        · rintro ⟨⟨hin, hlater⟩, homit⟩
          exact ⟨homit, hin, hlater⟩
      · intro _ later heq
        exact hne later heq

end

/-! ## The variants of a section -/

/-- In the variants of a form of a usage section, every ellipsis applies exactly when
the groups of the form that have an ellipsis directly behind them leave it something
to repeat. -/
theorem repeats_apply_iff {text : String} {usage : Usage}
    (h : Usage.parse text = .ok usage) {g : Grammar} (hg : g ∈ usage.variants)
    {variants : List Grammar} (hexpand : g.expand none = .ok variants) :
    (∃ tree : Alternation, tree.tokens = g.unlinked.tokens) ∧
      ∀ tree : Alternation, tree.tokens = g.unlinked.tokens →
        ((∀ v ∈ variants, RepeatsApply v) ↔ tree.anchored false = true) := by
  obtain ⟨⟨xs, hsource⟩, -⟩ := (Usage.exists_source h).2 g hg
  have hbalance : ∃ linked, g.balance = .ok linked := by
    cases hb : g.balance with
    | ok linked => exact ⟨linked, rfl⟩
    | error fault =>
      rw [Grammar.expand, hb] at hexpand
      cases hexpand
  obtain ⟨linked, hlinked⟩ := hbalance
  refine ⟨exists_tree (Grammar.wellNested_of_balance hlinked), fun tree htree => ?_⟩
  obtain rfl := Except.ok.inj
    ((Grammar.expand_unlimited_of_tree htree).symm.trans hexpand)
  have hrepeatable : Repeatable none tree.tokens := by
    rw [htree]
    exact hsource.repeatable.unlinked
  rw [← tree.ellipsesApply_iff false none hrepeatable (by simp [Opens])]
  simp only [List.forall_mem_map, repeatsApply_iff, variant, (ellipsesApply_spaced _).1]

/-- `a [b]... (c)...`: a group that is left out takes its ellipsis with it. -/
theorem repeats_apply_behind_groups :
    RepeatsApply ⟨[.word "a", .separator, .word "c", .ellipsis]⟩ ∧
      RepeatsApply ⟨[.word "a", .separator, .word "b", .ellipsis, .separator, .word "c",
        .ellipsis]⟩ := by
  have hparse : Usage.parse "prog a [b]... (c)..." = .ok ⟨"prog", [⟨[.word "a", .separator,
      .opening .optional none, .word "b", .closing .optional none, .ellipsis, .separator,
      .opening .required none, .word "c", .closing .required none, .ellipsis]⟩]⟩ := by
    with_unfolding_all rfl
  have hexpand : Grammar.expand ⟨[.word "a", .separator,
      .opening .optional none, .word "b", .closing .optional none, .ellipsis, .separator,
      .opening .required none, .word "c", .closing .required none, .ellipsis]⟩ none =
      .ok [⟨[.word "a", .separator, .word "c", .ellipsis]⟩,
        ⟨[.word "a", .separator, .word "b", .ellipsis, .separator, .word "c",
          .ellipsis]⟩] := by
    with_unfolding_all rfl
  have h := ((repeats_apply_iff hparse (by simp) hexpand).2
    (.one (.token ⟨.word "a", rfl⟩ (.token ⟨.separator, rfl⟩ (.group .optional
      (.one (.token ⟨.word "b", rfl⟩ .nil)) (.token .ellipsis (.token ⟨.separator, rfl⟩
        (.group .required (.one (.token ⟨.word "c", rfl⟩ .nil))
          (.token .ellipsis .nil)))))))) (by decide)).2 (by decide)
  exact ⟨h _ (by simp), h _ (by simp)⟩

/-- `([-a])...`: with the inner group left out, nothing is left to repeat. -/
theorem repeats_apply_fails :
    ∃ usage g v, Usage.parse "prog ([-a])..." = .ok usage ∧ g ∈ usage.variants ∧
      g.expand none = .ok [⟨[.ellipsis]⟩, v] ∧ ¬ RepeatsApply ⟨[.ellipsis]⟩ := by
  refine ⟨⟨"prog", [⟨[.opening .required none, .opening .optional none,
    .option "-a" none, .closing .optional none, .closing .required none, .ellipsis]⟩]⟩,
    ⟨[.opening .required none, .opening .optional none, .option "-a" none,
      .closing .optional none, .closing .required none, .ellipsis]⟩,
    ⟨[.option "-a" none, .ellipsis]⟩, by with_unfolding_all rfl, by simp, by with_unfolding_all rfl,
    fun h => ?_⟩
  obtain ⟨init, token, hinit, _⟩ := h [] [] rfl
  simp at hinit

end Synopsis
