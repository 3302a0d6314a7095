import Synopsis.Proofs.Cardinality
import Synopsis.Proofs.Composition

/-!
# Compiling under a limit

A limit on the variants of each form does nothing to a help document as long as every form
keeps within it.

* A form can be faulty under a limit in two ways (`FaultUnder`): it cannot be balanced, or it
  has too many variants.  These are the failures of expanding it
  (`expand_bounded_eq_error_iff`).
* The forms of a usage section are expanded under a limit exactly when they are expanded
  without one to lists that are short enough (`expandForms_bounded_eq_ok_iff`).  Otherwise the
  first faulty form is reported.
* `compile_eq_ok_iff` takes a run apart into its stages.  Of these only the forms see the limit.

`compile_bounded` compares the two runs on a whole document.
-/

namespace Synopsis

/-! ## One form -/

/-- What is wrong with a form when a limit is set. -/
inductive Grammar.FaultUnder (n : Nat) (g : Grammar) : Fault → Prop
  | unbalanced {fault : Fault} (h : g.balance = .error fault) : FaultUnder n g fault
  | excess {variants : List Grammar} (h : g.expand none = .ok variants)
      (hlength : n < variants.length) : FaultUnder n g (.tooManyVariants n)

namespace Grammar

/-- A grammar that cannot be expanded without a limit cannot be balanced. -/
theorem expand_unlimited_eq_error_iff {g : Grammar} {fault : Fault} :
    g.expand none = .error fault ↔ g.balance = .error fault := by
  constructor
  · intro h
    cases hbalance : g.balance with
    | error cause =>
      rw [expand_of_balance_error hbalance] at h
      obtain rfl := Except.error.inj h
      rfl
    | ok linked =>
      obtain ⟨tree, htree⟩ := exists_tree (wellNested_of_balance hbalance)
      rw [expand_unlimited_of_tree htree] at h
      cases h
  · exact fun h => expand_of_balance_error h none

theorem expand_bounded_eq_error_iff {g : Grammar} {n : Nat} {fault : Fault} :
    g.expand (some n) = .error fault ↔ g.FaultUnder n fault := by
  constructor
  · intro h
    cases hall : g.expand none with
    | error cause =>
      have hbalance := expand_unlimited_eq_error_iff.1 hall
      rw [expand_of_balance_error hbalance] at h
      obtain rfl := Except.error.inj h
      exact .unbalanced hbalance
    | ok variants =>
      rw [expand_bounded_of_unlimited hall] at h
      split at h
      · cases h
      · rename_i hmore
        obtain rfl := Except.error.inj h
        exact .excess hall (Nat.not_le.1 hmore)
  · rintro (h | ⟨h, hlength⟩)
    · exact expand_of_balance_error h (some n)
    · rw [expand_bounded_of_unlimited h, if_neg (Nat.not_le.2 hlength)]

end Grammar

namespace Help

/-! ## The forms of a usage section -/

theorem expandForms_bounded_eq_ok_iff {n position : Nat} {forms : List Grammar}
    {usages : List CompiledUsage} :
    expandForms (some n) position forms = .ok usages ↔
      expandForms none position forms = .ok usages ∧
        ∀ u ∈ usages, u.variants.length ≤ n := by
  simp only [expandForms_eq_ok_iff, Grammar.expand_bounded_eq_ok_iff]
  constructor
  · rintro ⟨hsources, hbounded⟩
    exact ⟨⟨hsources, fun u hu => (hbounded u hu).1⟩, fun u hu => (hbounded u hu).2⟩
  · rintro ⟨⟨hsources, hall⟩, hshort⟩
    exact ⟨hsources, fun u hu => ⟨hall u hu, hshort u hu⟩⟩

/-- Under a limit the first faulty form decides, when there is one. -/
theorem expandForms_of_faulty {n : Nat} (position : Nat) {forms : List Grammar}
    (h : ∃ g ∈ forms, ∃ cause, g.FaultUnder n cause) :
    ∃ earlier g later cause, forms = earlier ++ g :: later ∧
      (∀ g' ∈ earlier, ∀ cause', ¬ g'.FaultUnder n cause') ∧ g.FaultUnder n cause ∧
        expandForms (some n) position forms =
          .error (.grammar (position + earlier.length) cause) := by
  cases hforms : expandForms (some n) position forms with
  | ok usages =>
    obtain ⟨g, hg, cause, hcause⟩ := h
    obtain ⟨hsources, hvariants⟩ := (expandForms_eq_ok_iff position).1 hforms
    obtain ⟨u, hu, rfl⟩ := List.mem_map.1 (hsources ▸ hg)
    have herror := Grammar.expand_bounded_eq_error_iff.2 hcause
    cases herror.symm.trans (hvariants u hu)
  | error error =>
    obtain ⟨earlier, g, later, cause, hsplit, hearlier, hcause, rfl⟩ :=
      (expandForms_eq_error_iff position).1 hforms
    refine ⟨earlier, g, later, cause, hsplit, fun g' hg' cause' hfault => ?_,
      Grammar.expand_bounded_eq_error_iff.1 hcause, rfl⟩
    obtain ⟨variants, hok⟩ := hearlier g' hg'
    cases (Grammar.expand_bounded_eq_error_iff.2 hfault).symm.trans hok

/-! ## The document -/

/-- A document is compiled when each of its stages succeeds. -/
theorem compile_eq_ok_iff {limit : Option Nat} {document : String} {help : CompiledHelp} :
    compile limit document = .ok help ↔
      ∃ sections usage, Sections.ofDocument? document = some sections ∧
        Usage.parse sections.usage = .ok usage ∧ help.binary = usage.binary ∧
          expandForms limit 0 usage.variants = .ok help.usages ∧
            parseOptions sections.options = .ok help.options := by
  constructor
  · intro h
    cases hsections : Sections.ofDocument? document with
    | none =>
      rw [compile, hsections] at h
      cases h
    | some sections =>
      cases husage : Usage.parse sections.usage with
      | error failure =>
        rw [compile, hsections] at h
        simp only [husage] at h
        cases h
      | ok usage =>
        rw [compile_of_sections hsections husage] at h
        obtain ⟨usages, husages, h⟩ := exists_of_bind h
        obtain ⟨options, hoptions, h⟩ := exists_of_bind h
        obtain rfl := Except.ok.inj h
        exact ⟨sections, usage, rfl, husage, rfl, husages, hoptions⟩
  · rintro ⟨sections, usage, hsections, husage, hbinary, husages, hoptions⟩
    rw [compile_of_sections hsections husage, husages, hoptions, ← hbinary]
    rfl

/-- A document is compiled under a limit exactly when it is compiled without one and no form
has more variants than the limit.  When the usage section can be read but a form is faulty
under the limit, the first such form is reported, whatever the options section is.  A higher
limit changes nothing in a document that is compiled under a lower one. -/
theorem compile_bounded (document : String) (n : Nat) :
    (∀ help, compile (some n) document = .ok help ↔
      compile none document = .ok help ∧ ∀ u ∈ help.usages, u.variants.length ≤ n) ∧
    (∀ sections usage, Sections.ofDocument? document = some sections →
      Usage.parse sections.usage = .ok usage →
      (∃ g ∈ usage.variants, ∃ cause, g.FaultUnder n cause) →
        ∃ earlier g later cause, usage.variants = earlier ++ g :: later ∧
          (∀ g' ∈ earlier, ∀ cause', ¬ g'.FaultUnder n cause') ∧ g.FaultUnder n cause ∧
            compile (some n) document = .error (.grammar earlier.length cause)) ∧
    ∀ m help, n ≤ m → compile (some n) document = .ok help →
      compile (some m) document = .ok help := by
  have hbounded : ∀ k help, compile (some k) document = .ok help ↔
      compile none document = .ok help ∧ ∀ u ∈ help.usages, u.variants.length ≤ k := by
    intro k help
    simp only [compile_eq_ok_iff, expandForms_bounded_eq_ok_iff]
    constructor
    · rintro ⟨sections, usage, hsections, husage, hbinary, ⟨hforms, hshort⟩, hoptions⟩
      exact ⟨⟨sections, usage, hsections, husage, hbinary, hforms, hoptions⟩, hshort⟩
    · rintro ⟨⟨sections, usage, hsections, husage, hbinary, hforms, hoptions⟩, hshort⟩
      exact ⟨sections, usage, hsections, husage, hbinary, ⟨hforms, hshort⟩, hoptions⟩
  refine ⟨hbounded n, fun sections usage hsections husage hfaulty => ?_,
    fun m help hle hcompile => ?_⟩
  · obtain ⟨earlier, g, later, cause, hsplit, hearlier, hfault, hforms⟩ :=
      expandForms_of_faulty 0 hfaulty
    refine ⟨earlier, g, later, cause, hsplit, hearlier, hfault, ?_⟩
    rw [Nat.zero_add] at hforms
    rw [compile_of_sections hsections husage, hforms]
    rfl
  · obtain ⟨hall, hshort⟩ := (hbounded n help).1 hcompile
    exact (hbounded m help).2 ⟨hall, fun u hu => Nat.le_trans (hshort u hu) hle⟩

/-- The second form is not closed, the third has too many variants, and the options section is
malformed.  The document without these is compiled under every limit from two on. -/
theorem compile_bounded_at_second_form :
    compile (some 1) "usage: p a\n p (b\n p [c]\n\n -d;e" =
        .error (.grammar 1 .unclosedGroup) ∧
      ∃ help, compile none "usage: p a\n p [c]" = .ok help ∧
        compile (some 2) "usage: p a\n p [c]" = .ok help ∧
          compile (some 3) "usage: p a\n p [c]" = .ok help := by
  constructor
  · have hsections : Sections.ofDocument? "usage: p a\n p (b\n p [c]\n\n -d;e" =
        some ⟨"p a\n p (b\n p [c]", some " -d;e"⟩ := by
      with_unfolding_all rfl
    have husage : Usage.parse "p a\n p (b\n p [c]" =
        .ok ⟨"p", [⟨[.word "a"]⟩, ⟨[.opening .required none, .word "b"]⟩,
          ⟨[.opening .optional none, .word "c", .closing .optional none]⟩]⟩ := by
      with_unfolding_all rfl
    have hfault : (⟨[.opening .required none, .word "b"]⟩ : Grammar).FaultUnder 1
        .unclosedGroup := .unbalanced rfl
    obtain ⟨earlier, g, later, cause, hsplit, hearlier, hcause, hcompile⟩ :=
      (compile_bounded _ 1).2.1 _ _ hsections husage ⟨_, by simp, _, hfault⟩
    rcases earlier with _ | ⟨first, _ | ⟨second, earlier⟩⟩
    all_goals
      simp only [List.cons_append, List.nil_append, List.cons.injEq] at hsplit
    · obtain ⟨rfl, -⟩ := hsplit
      have hok : (⟨[.word "a"]⟩ : Grammar).expand (some 1) = .ok [⟨[.word "a"]⟩] := by
        with_unfolding_all rfl
      cases (Grammar.expand_bounded_eq_error_iff.2 hcause).symm.trans hok
    · obtain ⟨rfl, rfl, -⟩ := hsplit
      obtain rfl := Except.error.inj ((Grammar.expand_bounded_eq_error_iff.2 hcause).symm.trans
        (Grammar.expand_bounded_eq_error_iff.2 hfault))
      exact hcompile
    · obtain ⟨-, rfl, -⟩ := hsplit
      exact absurd hfault (hearlier _ (by simp) _)
  · have hcompile : compile (some 2) "usage: p a\n p [c]" = .ok ⟨"p",
        [⟨⟨[.word "a"]⟩, [⟨[.word "a"]⟩]⟩,
          ⟨⟨[.opening .optional none, .word "c", .closing .optional none]⟩,
            [⟨[]⟩, ⟨[.word "c"]⟩]⟩], []⟩ := by
      with_unfolding_all rfl
    have h := compile_bounded "usage: p a\n p [c]" 2
    exact ⟨_, ((h.1 _).1 hcompile).1, hcompile, h.2.2 3 _ (by decide) hcompile⟩

end Help

end Synopsis
