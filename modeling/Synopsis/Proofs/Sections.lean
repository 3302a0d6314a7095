import Synopsis.Proofs.Lines
import Synopsis.Proofs.Tokens

/-!
# What the variants of a section are made of

`exists_source` says where a variant of a usage section comes from.  There are
scanned tokens such that

* each of them was read where the one before it left off, or stands behind a gap
  (`Follows`), where the end of a line counts as a gap;
* none of them is misplaced behind the one before it (`Fits`);
* the variant is made of them, with separators at the gaps that count (`laid`).

What holds of a scanned line is proved by `scan_induction`.  The tokens of one line follow
each other by `follows_scan`, and a later line of the same variant goes on behind a gap.
`Step` lists what a line can do when it is read.
-/

namespace Synopsis

open Lexeme Text

namespace Lexeme

theorem baseName?_isOf {s : List Char} {cut : Cut} (h : baseName? s = some cut) :
    cut.IsOf s := by
  cases s with
  | nil => cases h
  | cons c s =>
    rw [baseName?] at h
    split at h
    · obtain rfl := Option.some.inj h
      exact (Cut.run_isOf isBinaryChar s).after [c]
    · cases h

theorem binaryName?_isOf {s : List Char} {cut : Cut} (h : binaryName? s = some cut) :
    cut.IsOf s := by
  unfold binaryName? at h
  split at h
  · obtain ⟨base, hbase, rfl⟩ := Option.map_eq_some_iff.1 h
    exact (baseName?_isOf hbase).after ['.', '.', '/']
  · obtain ⟨base, hbase, rfl⟩ := Option.map_eq_some_iff.1 h
    exact (baseName?_isOf hbase).after ['.', '/']
  · exact baseName?_isOf h

theorem ne_nil_of_binaryName? {s : List Char} {cut : Cut} (h : binaryName? s = some cut) :
    s ≠ [] := by
  rintro rfl
  cases h

end Lexeme

namespace Usage

/-! ## Tokens that follow each other -/

/-- The text is at its end, or it starts with a gap. -/
def Loose (rest : List Char) : Prop :=
  ∀ c ∈ rest.head?, isLayout c = true

/-- The token stands behind a gap, or at the start of what is left. -/
def Stands (rest : List Char) (x : ScannedToken) : Prop :=
  x.spaced = true ∧ Loose rest ∨ x.spaced = false ∧ rest = x.tail

/-- Each token is read where the one before it stopped, or behind a gap.  `rest` is
what is left before the first of them. -/
inductive Follows : List Char → List ScannedToken → Prop
  | last {rest : List Char} (h : Loose rest) : Follows rest []
  | cons {rest r : List Char} {x : ScannedToken} {xs : List ScannedToken}
      (hstands : Stands rest x) (hread : Token.read? x.tail = some (x.token, r))
      (hlater : Follows r xs) : Follows rest (x :: xs)

/-- A line that is read behind a gap can stand behind any other line. -/
theorem Follows.append {rest : List Char} {xs ys : List ScannedToken} (h : Follows rest xs)
    (hys : ∀ r, Loose r → Follows r ys) : Follows rest (xs ++ ys) := by
  induction h with
  | last h => exact hys _ h
  | cons hstands hread _ ih => exact .cons hstands hread ih

theorem Follows.token_ne_separator {rest : List Char} {xs : List ScannedToken}
    (h : Follows rest xs) : ∀ x ∈ xs, x.token ≠ .separator := by
  induction h with
  | last => simp
  | cons _ hread _ ih =>
    intro x hx
    rcases List.mem_cons.1 hx with rfl | hx
    · exact (Token.read?_eq_some_iff.1 hread).ne_separator
    · exact ih x hx

theorem scan_of_layout {spaced : Bool} {s : List Char} (h : (indent s).rest = []) :
    scan spaced s = ⟨[], none⟩ := by
  rw [scan, h]
  rfl

theorem scan_of_read (spaced : Bool) {s rest : List Char} {token : Token}
    (h : Token.read? (indent s).rest = some (token, rest)) :
    scan spaced s =
      ⟨⟨token, spaced || !(indent s).taken.isEmpty, (indent s).rest⟩ ::
        (scan false rest).tokens, (scan false rest).unreadable⟩ := by
  have hne : (indent s).rest.isEmpty = false := by
    have hlt := Token.length_lt_of_read? h
    cases hs : (indent s).rest with
    | nil =>
      rw [hs] at hlt
      exact absurd hlt (Nat.not_lt_zero _)
    | cons _ _ => rfl
  rw [scan]
  simp only [hne, Bool.false_eq_true, if_false]
  split
  · rename_i hnone
    cases hnone.symm.trans h
  · rename_i token' rest' hsome
    obtain ⟨rfl, rfl⟩ := Prod.mk.inj (Option.some.inj (hsome.symm.trans h))
    rfl

theorem scan_of_unreadable {spaced : Bool} {s : List Char} (hne : (indent s).rest ≠ [])
    (h : Token.read? (indent s).rest = none) :
    scan spaced s = ⟨[], some (indent s).rest⟩ := by
  have hempty : (indent s).rest.isEmpty = false := by simpa using hne
  rw [scan]
  simp only [hempty, Bool.false_eq_true, if_false]
  split
  · rfl
  · rename_i hsome
    cases hsome.symm.trans h

/-- A line is scanned token by token, up to its end or to a text that cannot be read. -/
@[elab_as_elim]
theorem scan_induction {P : Bool → List Char → Prop}
    (layout : ∀ spaced s, (indent s).rest = [] → P spaced s)
    (unreadable : ∀ spaced s, (indent s).rest ≠ [] → Token.read? (indent s).rest = none →
      P spaced s)
    (read : ∀ spaced s token rest, Token.read? (indent s).rest = some (token, rest) →
      P false rest → P spaced s)
    (spaced : Bool) (s : List Char) : P spaced s := by
  generalize hn : s.length = n
  induction n using Nat.strongRecOn generalizing s spaced with
  | ind n ih =>
    subst hn
    by_cases hrest : (indent s).rest = []
    · exact layout spaced s hrest
    · cases hread : Token.read? (indent s).rest with
      | none => exact unreadable spaced s hrest hread
      | some read' =>
        obtain ⟨token, rest⟩ := read'
        have hs : (indent s).rest <:+ s := ⟨(indent s).taken, Cut.run_isOf _ s⟩
        have hlt : rest.length < s.length :=
          Nat.lt_of_lt_of_le (Token.length_lt_of_read? hread) hs.length_le
        exact read spaced s token rest hread (ih rest.length hlt false rest rfl)

/-- A text that has a gap at its start is loose, and any other text is all left. -/
theorem loose_or_rest_eq (s : List Char) :
    Loose s ∧ (indent s).taken ≠ [] ∨ (indent s).rest = s ∧ (indent s).taken = [] := by
  cases s with
  | nil => exact Or.inr ⟨rfl, rfl⟩
  | cons c s =>
    cases hc : isLayout c with
    | true =>
      refine Or.inl ⟨?_, by simp [indent, Cut.run, hc]⟩
      intro d hd
      obtain rfl : c = d := by simpa using hd
      exact hc
    | false => exact Or.inr ⟨by simp [indent, Cut.run, hc], by simp [indent, Cut.run, hc]⟩

theorem loose_of_rest_eq_nil {s : List Char} (h : (indent s).rest = []) : Loose s := by
  rcases loose_or_rest_eq s with ⟨hloose, _⟩ | ⟨hrest, _⟩
  · exact hloose
  · rw [← hrest, h]
    simp [Loose]

/-- The tokens of a line follow each other, and a line that is read behind a gap
can stand behind any other one. -/
theorem follows_scan {s : List Char} {spaced : Bool}
    (h : (scan spaced s).unreadable = none) :
    (spaced = false → Follows s (scan spaced s).tokens) ∧
      (spaced = true → ∀ r, Loose r → Follows r (scan spaced s).tokens) := by
  induction spaced, s using scan_induction with
  | layout spaced s hrest =>
    rw [scan_of_layout hrest]
    exact ⟨fun _ => .last (loose_of_rest_eq_nil hrest), fun _ r hr => .last hr⟩
  | unreadable spaced s hrest hread =>
    rw [scan_of_unreadable hrest hread] at h
    cases h
  | read spaced s token rest hread ih =>
    rw [scan_of_read spaced hread] at h ⊢
    have hlater := (ih h).1 rfl
    refine ⟨fun hfalse => ?_, fun htrue r hr => ?_⟩
    · rcases loose_or_rest_eq s with ⟨hloose, htaken⟩ | ⟨hsame, htaken⟩
      · exact .cons (Or.inl ⟨by simpa using Or.inr htaken, hloose⟩) hread hlater
      · exact .cons (Or.inr ⟨by simp [hfalse, htaken], hsame.symm⟩) hread hlater
    · exact .cons (Or.inl ⟨by simp [htrue], hr⟩) hread hlater

/-- The text from a token of a line on is the end of the line. -/
theorem tail_suffix_of_mem_scan {s : List Char} {spaced : Bool} :
    ∀ x ∈ (scan spaced s).tokens, x.tail <:+ s := by
  induction spaced, s using scan_induction with
  | layout spaced s hrest =>
    rw [scan_of_layout hrest]
    simp
  | unreadable spaced s hrest hread =>
    rw [scan_of_unreadable hrest hread]
    simp
  | read spaced s token rest hread ih =>
    have hs : (indent s).rest <:+ s := ⟨(indent s).taken, Cut.run_isOf _ s⟩
    have hsuffix := (Token.read?_eq_some_iff.1 hread).suffix.trans hs
    rw [scan_of_read spaced hread]
    intro x hx
    rcases List.mem_cons.1 hx with rfl | hx
    · exact hs
    · exact (ih x hx).trans hsuffix

/-! ## Laying tokens out -/

/-- No token is misplaced behind the one before it. -/
inductive Fits : Option Token → List ScannedToken → Prop
  | nil (previous : Option Token) : Fits previous []
  | cons {previous : Option Token} {x : ScannedToken} {xs : List ScannedToken}
      (h : misplaced? previous x.token = none) (hlater : Fits (some x.token) xs) :
      Fits previous (x :: xs)

/-- The token, with a separator before it where a gap counts. -/
def laidOne (previous : Option Token) (x : ScannedToken) : List Token :=
  if x.spaced && separates previous x.token then [.separator, x.token] else [x.token]

/-- The tokens, with separators at the gaps that count. -/
def laid : Option Token → List ScannedToken → List Token
  | _, [] => []
  | previous, x :: xs => laidOne previous x ++ laid (some x.token) xs

/-- The last of the tokens, or the one before them. -/
def lastOf : Option Token → List ScannedToken → Option Token
  | previous, [] => previous
  | _, x :: xs => lastOf (some x.token) xs

theorem Fits.append {previous : Option Token} {xs ys : List ScannedToken}
    (h : Fits previous xs) (hys : Fits (lastOf previous xs) ys) :
    Fits previous (xs ++ ys) := by
  induction h with
  | nil previous => exact hys
  | cons h _ ih => exact .cons h (ih hys)

theorem fits_append_iff {previous : Option Token} {xs ys : List ScannedToken} :
    Fits previous (xs ++ ys) ↔ Fits previous xs ∧ Fits (lastOf previous xs) ys := by
  induction xs generalizing previous with
  | nil => simp [Fits.nil, lastOf]
  | cons x xs ih =>
    constructor
    · intro h
      cases h with
      | cons hfit hlater => exact ⟨.cons hfit (ih.1 hlater).1, (ih.1 hlater).2⟩
    · intro h
      exact h.1.append h.2

theorem laid_append (previous : Option Token) (xs ys : List ScannedToken) :
    laid previous (xs ++ ys) = laid previous xs ++ laid (lastOf previous xs) ys := by
  induction xs generalizing previous with
  | nil => simp [laid, lastOf]
  | cons x xs ih => simp [laid, ih, lastOf]

theorem lastOf_append (previous : Option Token) (xs ys : List ScannedToken) :
    lastOf previous (xs ++ ys) = lastOf (lastOf previous xs) ys := by
  induction xs generalizing previous with
  | nil => rfl
  | cons x xs ih => exact ih (some x.token)

theorem lastOf_eq (previous : Option Token) (xs : List ScannedToken) :
    lastOf previous xs = (xs.map (·.token)).getLast?.or previous := by
  induction xs generalizing previous with
  | nil => rfl
  | cons x xs ih =>
    rw [lastOf, ih, List.map_cons, List.getLast?_cons]
    cases (xs.map (·.token)).getLast? <;> rfl

theorem last?_append_laidOne (g : Grammar) (previous : Option Token) (x : ScannedToken) :
    (g.append (laidOne previous x)).last? = some x.token := by
  unfold laidOne
  split <;> simp [Grammar.append, Grammar.last?]

theorem place_eq_ok_iff {line : SourceLine} {g g' : Grammar} {x : ScannedToken} :
    place line g x = .ok g' ↔
      misplaced? g.last? x.token = none ∧ g' = g.append (laidOne g.last? x) := by
  unfold place laidOne
  cases misplaced? g.last? x.token with
  | some violation => simp
  | none =>
    by_cases hgap : (x.spaced && separates g.last? x.token) = true
    · simp [hgap, Grammar.push, Grammar.append, eq_comm]
    · simp [hgap, Grammar.push, Grammar.append, eq_comm]

/-- Placing tokens one after the other lays them out behind the grammar. -/
theorem foldlM_place_eq_ok_iff {line : SourceLine} {xs : List ScannedToken}
    {g g' : Grammar} :
    xs.foldlM (place line) g = .ok g' ↔
      Fits g.last? xs ∧ g' = g.append (laid g.last? xs) := by
  induction xs generalizing g with
  | nil =>
    simp only [List.foldlM_nil, laid, Grammar.append, List.append_nil]
    constructor
    · intro h
      exact ⟨.nil _, (Except.ok.inj h).symm⟩
    · rintro ⟨_, rfl⟩
      rfl
  | cons x xs ih =>
    rw [List.foldlM_cons]
    constructor
    · intro h
      cases hplace : place line g x with
      | error failure =>
        rw [hplace] at h
        cases h
      | ok g₁ =>
        rw [hplace] at h
        obtain ⟨hfit, rfl⟩ := place_eq_ok_iff.1 hplace
        obtain ⟨hlater, rfl⟩ := ih.1 h
        rw [last?_append_laidOne] at hlater ⊢
        refine ⟨.cons hfit hlater, ?_⟩
        simp [laid, Grammar.append]
    · rintro ⟨hfits, rfl⟩
      cases hfits with
      | cons hfit hlater =>
        have hplace : place line g x = .ok _ := place_eq_ok_iff.2 ⟨hfit, rfl⟩
        rw [hplace]
        refine ih.2 ⟨?_, ?_⟩
        · rw [last?_append_laidOne]
          exact hlater
        · rw [last?_append_laidOne]
          simp [laid, Grammar.append]

/-- Reading what is left of a line lays its tokens out behind the grammar. -/
theorem extend_eq_ok_iff {line : SourceLine} {g g' : Grammar} {spaced : Bool}
    {tail : List Char} :
    extend line g spaced tail = .ok g' ↔
      (scan spaced tail).unreadable = none ∧ Fits g.last? (scan spaced tail).tokens ∧
        g' = g.append (laid g.last? (scan spaced tail).tokens) := by
  rw [← foldlM_place_eq_ok_iff, extend]
  cases hplace : (scan spaced tail).tokens.foldlM (place line) g with
  | error failure => simp
  | ok g₁ =>
    cases hunread : (scan spaced tail).unreadable with
    | some rest => simp
    | none => simp

/-! ## Sources -/

/-- The scanned tokens that a grammar is made of. -/
structure Source (g : Grammar) (xs : List ScannedToken) : Prop where
  follows : ∃ rest, Follows rest xs
  fits : Fits none xs
  tokens : g.tokens = laid none xs
  oneLine : ∀ x ∈ xs, '\n' ∉ x.tail

theorem getLast?_laid (previous : Option Token) (xs : List ScannedToken) :
    (laid previous xs).getLast?.or previous = lastOf previous xs := by
  induction xs generalizing previous with
  | nil => simp [laid, lastOf]
  | cons x xs ih =>
    rw [lastOf, ← ih, laid, List.getLast?_append, Option.or_assoc]
    unfold laidOne
    split <;> simp

theorem last?_append_laid (g : Grammar) (xs : List ScannedToken) :
    (g.append (laid g.last? xs)).last? = lastOf g.last? xs := by
  rw [← getLast?_laid]
  exact List.getLast?_append

theorem Source.last? {g : Grammar} {xs : List ScannedToken} (h : Source g xs) :
    g.last? = lastOf none xs := by
  rw [← getLast?_laid, ← h.tokens, Option.or_none]
  rfl

/-- A line that is read into a grammar adds its tokens to the source. -/
theorem Source.extend {line : SourceLine} {g g' : Grammar} {spaced : Bool}
    {xs : List ScannedToken} {tail : List Char} (h : Source g xs)
    (hfirst : spaced = false → xs = []) (htail : '\n' ∉ tail)
    (hextend : Usage.extend line g spaced tail = .ok g') :
    Source g' (xs ++ (scan spaced tail).tokens) := by
  obtain ⟨hunread, hfits, rfl⟩ := extend_eq_ok_iff.1 hextend
  have hscan := follows_scan hunread
  refine ⟨?_, h.fits.append (h.last? ▸ hfits), ?_, fun x hx => ?_⟩
  · cases spaced with
    | false =>
      rw [hfirst rfl]
      exact ⟨tail, hscan.1 rfl⟩
    | true =>
      obtain ⟨rest, hrest⟩ := h.follows
      exact ⟨rest, hrest.append (hscan.2 rfl)⟩
  · simp [Grammar.append, h.tokens, laid_append, h.last?]
  · rcases List.mem_append.1 hx with hx | hx
    · exact h.oneLine x hx
    · exact fun hmem => htail ((tail_suffix_of_mem_scan x hx).mem hmem)

theorem source_empty : Source .empty [] :=
  ⟨⟨[], .last (by simp [Loose])⟩, .nil none, rfl, by simp⟩

/-- The grammar does not end with a bar. -/
def EndsWell (g : Grammar) : Prop :=
  ∀ start next, g.last? ≠ some (.bar start next)

/-- What holds of a reading while the lines are read. -/
structure Reading.Sourced (r : Reading) : Prop where
  binary : ∃ tail rest, binaryName? tail = some ⟨r.binary, rest⟩
  finished : ∀ g ∈ r.finished, (∃ xs, Source g xs) ∧ EndsWell g
  current : ∃ xs, Source r.current xs
  dangling : r.dangling = none → EndsWell r.current

namespace Reading

theorem sourced_continueWith {r r' : Reading} {line : SourceLine} {spaced : Bool}
    {tail : List Char} (h : r.Sourced) (hfirst : spaced = false → r.current = .empty)
    (htail : '\n' ∉ tail) (hread : r.continueWith line spaced tail = .ok r') :
    r'.Sourced := by
  unfold continueWith at hread
  cases hextend : extend line r.current spaced tail with
  | error failure =>
    rw [hextend] at hread
    cases hread
  | ok g =>
    simp only [hextend] at hread
    obtain rfl := Except.ok.inj hread
    refine ⟨h.binary, h.finished, ?_, fun hdangling start next hlast => ?_⟩
    · cases spaced with
      | false =>
        rw [hfirst rfl] at hextend
        exact ⟨_, source_empty.extend (fun _ => rfl) htail hextend⟩
      | true =>
        obtain ⟨xs, hxs⟩ := h.current
        exact ⟨_, hxs.extend (fun hfalse => by cases hfalse) htail hextend⟩
    · have hlast : g.last? = some (.bar start next) := hlast
      simp [hlast] at hdangling

theorem sourced_startNext {r r' : Reading} (h : r.Sourced) (hnext : r.startNext = .ok r') :
    r'.Sourced ∧ r'.current = .empty := by
  unfold startNext at hnext
  cases hdangling : r.dangling with
  | some failure =>
    rw [hdangling] at hnext
    cases hnext
  | none =>
    simp only [hdangling] at hnext
    obtain rfl := Except.ok.inj hnext
    refine ⟨⟨h.binary, fun g hg => ?_, ⟨[], source_empty⟩, fun _ => ?_⟩, rfl⟩
    · rcases List.mem_append.1 hg with hg | hg
      · exact h.finished g hg
      · obtain rfl : g = r.current := by simpa using hg
        exact ⟨h.current, h.dangling hdangling⟩
    · simp [EndsWell, Grammar.last?, Grammar.empty]

theorem sourced_start {tail name rest : List Char}
    (h : binaryName? tail = some ⟨name, rest⟩) : (start name).Sourced :=
  ⟨⟨tail, rest, h⟩, by simp [start], ⟨[], source_empty⟩,
    fun _ => by simp [EndsWell, start, Grammar.last?, Grammar.empty]⟩

/-- What a line does that is read.  It is blank, it opens the first form or the next one,
or it continues the current form. -/
inductive Step (line : SourceLine) : Option Reading → Option Reading → Prop
  | blank {reading : Option Reading} (hblank : (indent line.text).rest = []) :
      Step line reading reading
  | first {name : Cut} {r' : Reading}
      (hname : binaryName? (indent line.text).rest = some name)
      (hread : (start name.taken).continueWith line false name.rest = .ok r') :
      Step line none (some r')
  | next {name : Cut} {r next r' : Reading}
      (hname : binaryName? (indent line.text).rest = some name)
      (hsame : name.taken = r.binary) (hnext : r.startNext = .ok next)
      (hread : next.continueWith line false name.rest = .ok r') :
      Step line (some r) (some r')
  | continued {r r' : Reading}
      (hother : ∀ name, binaryName? (indent line.text).rest = some name →
        name.taken ≠ r.binary)
      (hread : r.continueWith line true (indent line.text).rest = .ok r') :
      Step line (some r) (some r')

theorem step_of_readLine {reading reading' : Option Reading} {line : SourceLine}
    (h : readLine reading line = .ok reading') : Step line reading reading' := by
  simp only [readLine] at h
  split at h
  · rename_i hempty
    obtain rfl := Except.ok.inj h
    exact .blank (List.isEmpty_iff.1 hempty)
  · cases hname : binaryName? (indent line.text).rest with
    | none =>
      rw [hname] at h
      cases reading with
      | none => cases h
      | some r =>
        obtain ⟨r', rfl, hread⟩ := exists_of_map_ok h
        refine .continued (fun name hsome => ?_) hread
        cases hname.symm.trans hsome
    | some name =>
      rw [hname] at h
      cases reading with
      | none =>
        obtain ⟨r', rfl, hread⟩ := exists_of_map_ok h
        exact .first hname hread
      | some r =>
        simp only at h
        split at h
        · rename_i hsame
          cases hnext : r.startNext with
          | error failure =>
            rw [hnext] at h
            cases h
          | ok next =>
            rw [hnext] at h
            obtain ⟨r', rfl, hread⟩ := exists_of_map_ok h
            exact .next hname hsame hnext hread
        · rename_i hother
          obtain ⟨r', rfl, hread⟩ := exists_of_map_ok h
          refine .continued (fun name' hname' => ?_) hread
          obtain rfl := Option.some.inj (hname.symm.trans hname')
          exact hother

theorem sourced_readLine {reading reading' : Option Reading} {line : SourceLine}
    (h : ∀ r, reading = some r → r.Sourced) (hline : '\n' ∉ line.text)
    (hread : readLine reading line = .ok reading') :
    ∀ r, reading' = some r → r.Sourced := by
  have htail : '\n' ∉ (indent line.text).rest := by
    intro hmem
    have hsuffix : (indent line.text).rest <:+ line.text := ⟨_, Cut.run_isOf _ line.text⟩
    exact hline (hsuffix.mem hmem)
  have hrest : ∀ name, binaryName? (indent line.text).rest = some name → '\n' ∉ name.rest :=
    fun name hname hmem =>
      htail (binaryName?_isOf hname ▸ List.mem_append_right name.taken hmem)
  rintro r rfl
  cases step_of_readLine hread with
  | blank => exact h r rfl
  | first hname hread =>
    exact sourced_continueWith (sourced_start hname) (fun _ => rfl) (hrest _ hname) hread
  | next hname _ hnext hread =>
    obtain ⟨hsourced, hempty⟩ := sourced_startNext (h _ rfl) hnext
    exact sourced_continueWith hsourced (fun _ => hempty) (hrest _ hname) hread
  | continued _ hread =>
    exact sourced_continueWith (h _ rfl) (fun hfalse => by cases hfalse) htail hread

theorem sourced_foldlM {lines : List SourceLine} {reading reading' : Option Reading}
    (h : ∀ r, reading = some r → r.Sourced) (hlines : ∀ line ∈ lines, '\n' ∉ line.text)
    (hread : lines.foldlM readLine reading = .ok reading') :
    ∀ r, reading' = some r → r.Sourced := by
  induction lines generalizing reading with
  | nil =>
    obtain rfl := Except.ok.inj hread
    exact h
  | cons line lines ih =>
    rw [List.foldlM_cons] at hread
    obtain ⟨next, hfirst, hlater⟩ := exists_of_bind hread
    have hnext := sourced_readLine h (hlines line (by simp)) hfirst
    exact ih hnext (fun l hl => hlines l (by simp [hl])) hlater

end Reading

/-- Every variant of a usage section is made of scanned tokens, and the program has a
name that can be read. -/
theorem exists_source {text : String} {usage : Usage} (h : parse text = .ok usage) :
    (∃ tail rest, binaryName? tail = some ⟨usage.binary.toList, rest⟩) ∧
      ∀ g ∈ usage.variants, (∃ xs, Source g xs) ∧ EndsWell g := by
  simp only [parse, ofLines] at h
  cases hfold : (SourceLine.ofLines (Text.lines text.toList)).foldlM Reading.readLine none with
  | error failure =>
    rw [hfold] at h
    cases h
  | ok reading =>
    have hlines : ∀ line ∈ SourceLine.ofLines (Text.lines text.toList), '\n' ∉ line.text := by
      intro line hline
      obtain ⟨⟨chars, number⟩, hmem, rfl⟩ := List.mem_map.1 hline
      have hchars : chars ∈ Text.lines text.toList := by
        obtain ⟨_, _, hget⟩ := List.mem_zipIdx hmem
        exact hget ▸ List.getElem_mem _
      exact Text.not_mem_of_mem_lines hchars
    have hsourced := Reading.sourced_foldlM (by simp) hlines hfold
    rw [hfold] at h
    cases reading with
    | none => cases h
    | some r =>
      have hr := hsourced r rfl
      simp only [Reading.finish] at h
      cases hdangling : r.dangling with
      | some failure =>
        rw [hdangling] at h
        cases h
      | none =>
        rw [hdangling] at h
        obtain rfl := Except.ok.inj h
        refine ⟨?_, fun g hg => ?_⟩
        · simpa using hr.binary
        · rcases List.mem_append.1 hg with hg | hg
          · exact hr.finished g hg
          · obtain rfl : g = r.current := by simpa using hg
            exact ⟨hr.current, hr.dangling hdangling⟩

end Usage

end Synopsis
