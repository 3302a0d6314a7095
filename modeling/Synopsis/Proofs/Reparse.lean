import Synopsis.Proofs.Lines
import Synopsis.Proofs.Reading
import Synopsis.Proofs.Sections

/-!
# Reading a variant again

A variant of a usage section, written down as one line, is read as itself, unless it
holds an option without a value and, behind a separator, a positional token
(`parse_text_iff`).  Such an option takes the placeholder for its value, because the
one space that is written between the two is a joint.

The line is compared with the lines that the variant was read from.  The rest of the
line behind each token looks like the rest that was left there (`Follows.alike`), so
the token is read again.
-/

namespace Synopsis.Usage

open Lexeme Text

/-! ## The rest of the line -/

/-- The tokens behind `previous`, written down. -/
def rendered (previous : Option Token) (xs : List ScannedToken) : List Char :=
  (laid previous xs).flatMap Token.chars

theorem rendered_cons (previous : Option Token) (x : ScannedToken)
    (xs : List ScannedToken) :
    rendered previous (x :: xs) =
      (if x.spaced && separates previous x.token then [' '] else []) ++
        (x.token.chars ++ rendered (some x.token) xs) := by
  rw [rendered, laid, laidOne]
  split <;> simp [rendered, Token.chars]

theorem Loose.edge {rest : List Char} (h : Loose rest) : Edge rest := by
  cases rest with
  | nil => exact edge_nil
  | cons c s => exact edge_of_isLayout (h c (by simp)) s

theorem endsItem_of_isElement {token : Token} (h : token.isElement = true) :
    endsItem token = true := by
  cases token <;> first | rfl | cases h

/-- Only a mark can stand behind a gap that does not count. -/
theorem mem_marks_of_not_startsItem {x : ScannedToken} {r : List Char}
    (hread : Token.Reads x.tail x.token r) (h : ¬ startsItem x.token = true) :
    x.token ∈ Token.marks := by
  generalize hx : x.token = token at hread h
  cases hread with
  | mark hmark => exact (Token.readMark?_eq_some_iff.1 hmark).1
  | option => exact absurd rfl h
  | positional => exact absurd rfl h
  | word => exact absurd rfl h

/-- What is written behind a token looks like what was left behind it. -/
theorem Follows.alike {rest : List Char} {xs : List ScannedToken} (h : Follows rest xs)
    {previous : Token} (hprevious : endsItem previous = true) :
    Alike rest (rendered (some previous) xs) := by
  induction h generalizing previous with
  | last h => exact .of_edges h.edge edge_nil fun _ => rfl
  | @cons rest r x xs hstands hread _ ih =>
    have hread := Token.read?_eq_some_iff.1 hread
    rw [rendered_cons]
    rcases hstands with ⟨hspaced, h⟩ | ⟨hspaced, rfl⟩
    · by_cases hstarts : startsItem x.token = true
      · have hgap : (x.spaced && separates (some previous) x.token) = true := by
          simp [hspaced, separates, hprevious, hstarts]
        rw [if_pos hgap]
        exact .of_edges h.edge (edge_of_isLayout rfl _) fun _ => rfl
      · have hgap : ¬ (x.spaced && separates (some previous) x.token) = true := by
          simp [separates, hstarts]
        have hmark := mem_marks_of_not_startsItem hread hstarts
        obtain ⟨hedge, hangle, _⟩ := Token.edge_of_mem_marks hmark
          (rendered (some x.token) xs)
        rw [if_neg hgap]
        exact .of_edges h.edge hedge fun _ => hedge.placeholder?_eq_none hangle
    · rw [hspaced]
      exact hread.alike fun helement => ih (endsItem_of_isElement helement)

/-! ## Values behind a gap -/

/-- The token stands behind a gap and an option without a value, which would take it
for its value. -/
def Detached (previous : Option Token) (x : ScannedToken) : Prop :=
  ∃ name p, previous = some (.option name none) ∧ x.spaced = true ∧
    x.token = .positional p

/-- No token is detached from an option before it. -/
inductive Attached : Option Token → List ScannedToken → Prop
  | nil (previous : Option Token) : Attached previous []
  | cons {previous : Option Token} {x : ScannedToken} {xs : List ScannedToken}
      (h : ¬ Detached previous x) (hlater : Attached (some x.token) xs) :
      Attached previous (x :: xs)

/-- What is written behind an option is no value of it when nothing behind a gap was
detached from it. -/
theorem Follows.valueAlike {rest : List Char} {xs : List ScannedToken}
    (h : Follows rest xs) {name : String}
    (hdetached : ∀ x, xs.head? = some x → ¬ Detached (some (.option name none)) x) :
    Token.ValueAlike rest (rendered (some (.option name none)) xs) := by
  intro hnone
  cases h with
  | last h => rfl
  | @cons _ r x xs hstands hread hlater =>
    have hread := Token.read?_eq_some_iff.1 hread
    have halike := fun helement : x.token.isElement = true =>
      hlater.alike (endsItem_of_isElement helement)
    rw [rendered_cons]
    rcases hstands with ⟨hspaced, h⟩ | ⟨hspaced, rfl⟩
    · by_cases hstarts : startsItem x.token = true
      · have hgap : (x.spaced && separates (some (.option name none)) x.token) = true := by
          simp [hspaced, separates, endsItem, hstarts]
        rw [if_pos hgap]
        refine hread.placeholder?_eq_none halike fun p hp => ?_
        exact hdetached x rfl ⟨name, p, rfl, hspaced, hp⟩
      · have hgap : ¬ (x.spaced && separates (some (.option name none)) x.token) = true := by
          simp [separates, hstarts]
        have hmark := mem_marks_of_not_startsItem hread hstarts
        obtain ⟨hedge, hangle, hjoint⟩ := Token.edge_of_mem_marks hmark
          (rendered (some x.token) xs)
        rw [if_neg hgap, List.nil_append, hjoint]
        exact hedge.placeholder?_eq_none hangle
    · rw [hspaced]
      exact hread.valueAlike halike hnone

/-! ## Scanning what is written -/

theorem not_isLayout_of_read? {c : Char} {s r : List Char} {token : Token}
    (h : Token.read? (c :: s) = some (token, r)) : isLayout c = false := by
  cases hc : isLayout c with
  | false => rfl
  | true =>
    rcases isLayout_iff.1 hc with rfl | rfl
    · cases h
    · cases h

theorem indent_of_read? {s r : List Char} {token : Token}
    (h : Token.read? s = some (token, r)) :
    indent s = ⟨[], s⟩ ∧ indent (' ' :: s) = ⟨[' '], s⟩ := by
  cases s with
  | nil => cases h
  | cons c s =>
    have hc := not_isLayout_of_read? h
    have hspace : isLayout ' ' = true := rfl
    simp [indent, Cut.run, hc, hspace]

/-- A token that is written behind `previous` is scanned as the token that is read
there. -/
theorem scan_rendered_cons (spaced : Bool) (previous : Option Token) (x : ScannedToken)
    (xs : List ScannedToken) {token : Token} {r : List Char}
    (h : Token.read? (x.token.chars ++ rendered (some x.token) xs) = some (token, r)) :
    scan spaced (rendered previous (x :: xs)) =
      ⟨⟨token, spaced || (x.spaced && separates previous x.token),
        x.token.chars ++ rendered (some x.token) xs⟩ :: (scan false r).tokens,
        (scan false r).unreadable⟩ := by
  obtain ⟨hindent, hindent'⟩ := indent_of_read? h
  rw [rendered_cons]
  split
  · rename_i hgap
    have hscan := scan_of_read spaced
      (s := ' ' :: (x.token.chars ++ rendered (some x.token) xs)) (by rw [hindent']; exact h)
    rw [hindent'] at hscan
    rw [List.singleton_append, hscan, hgap]
    simp
  · rename_i hgap
    have hscan := scan_of_read spaced
      (s := x.token.chars ++ rendered (some x.token) xs) (by rw [hindent]; exact h)
    rw [hindent] at hscan
    rw [List.nil_append, hscan, Bool.eq_false_iff.2 hgap]
    simp

/-- The tokens as they stand in the line that is written for them. -/
def relaid (spaced : Bool) (previous : Option Token) : List ScannedToken → List ScannedToken
  | [] => []
  | x :: xs =>
    ⟨x.token, spaced || (x.spaced && separates previous x.token),
      x.token.chars ++ rendered (some x.token) xs⟩ :: relaid false (some x.token) xs

/-- A token of a source is read again where it is written. -/
theorem Follows.read?_again {r : List Char} {x : ScannedToken} {xs : List ScannedToken}
    (hread : Token.read? x.tail = some (x.token, r)) (hlater : Follows r xs)
    (hdetached : ∀ y, xs.head? = some y → ¬ Detached (some x.token) y) :
    Token.read? (x.token.chars ++ rendered (some x.token) xs) =
      some (x.token, rendered (some x.token) xs) := by
  refine Token.read?_append hread (fun helement =>
    hlater.alike (endsItem_of_isElement helement)) fun name hname => ?_
  rw [hname] at hdetached ⊢
  exact hlater.valueAlike hdetached

theorem Attached.head {previous : Option Token} {xs : List ScannedToken}
    (h : Attached previous xs) : ∀ x, xs.head? = some x → ¬ Detached previous x := by
  intro x hx
  cases h with
  | nil => cases hx
  | cons h _ =>
    obtain rfl := Option.some.inj hx
    exact h

/-- The tokens of a source are scanned again where they are written. -/
theorem Follows.scan_rendered {rest : List Char} {xs : List ScannedToken}
    (h : Follows rest xs) {previous : Option Token} (hattached : Attached previous xs)
    (spaced : Bool) :
    scan spaced (rendered previous xs) = ⟨relaid spaced previous xs, none⟩ := by
  induction h generalizing previous spaced with
  | last => exact scan_of_layout rfl
  | cons _ hread hlater ih =>
    cases hattached with
    | cons _ hnext =>
      rw [scan_rendered_cons _ _ _ _ (Follows.read?_again hread hlater hnext.head),
        ih hnext false, relaid]

theorem fits_relaid {spaced : Bool} {previous : Option Token} {xs : List ScannedToken}
    (h : Fits previous xs) : Fits previous (relaid spaced previous xs) := by
  induction h generalizing spaced with
  | nil previous => exact .nil previous
  | cons h _ ih => exact .cons h ih

/-- A space before the first token of a line does not count. -/
theorem laidOne_again {spaced : Bool} {previous : Option Token}
    (h : spaced = false ∨ previous = none) (x : ScannedToken) (tail : List Char) :
    laidOne previous ⟨x.token, spaced || (x.spaced && separates previous x.token), tail⟩ =
      laidOne previous x := by
  rw [laidOne, laidOne]
  rcases h with rfl | rfl
  · simp
  · simp [separates]

theorem laid_relaid {spaced : Bool} {previous : Option Token}
    (h : spaced = false ∨ previous = none) (xs : List ScannedToken) :
    laid previous (relaid spaced previous xs) = laid previous xs := by
  induction xs generalizing spaced previous with
  | nil => rfl
  | cons x xs ih =>
    rw [relaid, laid, laid, ih (Or.inl rfl), laidOne_again h]

/-! ## A detached value is taken -/

/-- Different tokens are laid out differently, whatever gaps they stand behind. -/
theorem laidOne_append_ne {previous : Option Token} {x y : ScannedToken}
    {tokens tokens' : List Token} (hx : x.token ≠ .separator) (hy : y.token ≠ .separator)
    (h : x.token ≠ y.token) : laidOne previous x ++ tokens ≠ laidOne previous y ++ tokens' := by
  unfold laidOne
  split <;> split
  · simp [h]
  · simp [hy.symm]
  · simp [hx]
  · simp [h]

/-- Where a placeholder is written behind an option, it is read as the value. -/
theorem Follows.read?_detached {r r' : List Char} {x y : ScannedToken}
    {ys : List ScannedToken} {name p : String}
    (hreadx : Token.read? x.tail = some (x.token, r)) (hx : x.token = .option name none)
    (hready : Token.read? y.tail = some (y.token, r')) (hspaced : y.spaced = true)
    (hy : y.token = .positional p) (h : Follows r' ys) :
    ∃ rest, Token.read? (x.token.chars ++ rendered (some x.token) (y :: ys)) =
      some (.option name (some p), rest) := by
  rw [hy] at hready
  obtain ⟨cut, hcut, rfl, rfl⟩ := (Token.read?_eq_some_iff.1 hready).exists_cut
  have hends : endsItem y.token = true := by
    rw [hy]
    rfl
  have hagain := placeholder?_append hcut (h.alike hends).ends
  have hgap : (y.spaced && separates (some x.token) y.token) = true := by
    rw [hspaced, hx, hy]
    rfl
  have hchars : y.token.chars = cut.taken := by
    rw [hy]
    exact Token.chars_positional _
  rw [hx] at hreadx
  have htaken := Token.read?_option_behind_space hreadx hagain
  rw [rendered_cons, if_pos hgap, hchars, hx]
  exact ⟨_, htaken⟩

/-- What is scanned where a token is detached from an option is not laid out the same
way. -/
theorem Follows.laid_scan_ne {rest : List Char} {xs : List ScannedToken}
    (h : Follows rest xs) {previous : Option Token} {spaced : Bool}
    (hfirst : spaced = false ∨ previous = none)
    (hhead : ∀ x, xs.head? = some x → ¬ Detached previous x)
    (hnot : ¬ Attached previous xs) :
    laid previous (scan spaced (rendered previous xs)).tokens ≠ laid previous xs := by
  induction h generalizing previous spaced with
  | last => exact absurd (.nil previous) hnot
  | @cons rest r x xs _ hread hlater ih =>
    by_cases hnext : ∀ y, xs.head? = some y → ¬ Detached (some x.token) y
    · have hrest : ¬ Attached (some x.token) xs := fun hattached =>
        hnot (.cons (hhead x rfl) hattached)
      rw [scan_rendered_cons _ _ _ _ (Follows.read?_again hread hlater hnext), laid, laid,
        laidOne_again hfirst]
      intro heq
      exact ih (Or.inl rfl) hnext hrest (List.append_cancel_left heq)
    · -- The option takes the placeholder, and so it is not the token it was.
      obtain ⟨y, hy, hdetached⟩ : ∃ y, xs.head? = some y ∧ Detached (some x.token) y := by
        refine Classical.byContradiction fun hnone => hnext fun y hy hdetached => ?_
        exact hnone ⟨y, hy, hdetached⟩
      obtain ⟨name, p, hx, hspaced, hp⟩ := hdetached
      have hx : x.token = .option name none := Option.some.inj hx
      cases hlater with
      | last => cases hy
      | @cons _ r' z zs _ hready hlatery =>
        obtain rfl : z = y := Option.some.inj hy
        obtain ⟨rest, htaken⟩ := hlatery.read?_detached hread hx hready hspaced hp
        rw [scan_rendered_cons _ _ _ _ htaken, laid, laid]
        exact laidOne_append_ne (by simp) (by simp [hx]) (by simp [hx])

/-! ## The grammar decides -/

/-- The grammar holds an option without a value and, behind a separator, a positional
token. -/
def HasDetached (tokens : List Token) : Prop :=
  ∃ before name p after,
    tokens = before ++ .option name none :: .separator :: .positional p :: after

theorem hasDetached_cons {token : Token} {tokens : List Token} :
    HasDetached (token :: tokens) ↔
      (∃ name p after, token = .option name none ∧
        tokens = .separator :: .positional p :: after) ∨ HasDetached tokens := by
  constructor
  · rintro ⟨before, name, p, after, h⟩
    cases before with
    | nil =>
      obtain ⟨rfl, rfl⟩ := List.cons.inj h
      exact Or.inl ⟨name, p, after, rfl, rfl⟩
    | cons first before =>
      obtain ⟨rfl, rfl⟩ := List.cons.inj h
      exact Or.inr ⟨before, name, p, after, rfl⟩
  · rintro (⟨name, p, after, rfl, rfl⟩ | ⟨before, name, p, after, rfl⟩)
    · exact ⟨[], name, p, after, rfl⟩
    · exact ⟨token :: before, name, p, after, rfl⟩

theorem not_hasDetached_of_length {tokens : List Token} (h : tokens.length < 3) :
    ¬ HasDetached tokens := by
  rintro ⟨before, name, p, after, rfl⟩
  simp only [List.length_append, List.length_cons] at h
  omega

/-- A token that is laid out is behind a separator exactly when it stands behind a gap
that counts. -/
theorem hasDetached_laid_cons {previous : Token} {x : ScannedToken}
    {xs : List ScannedToken} (hx : x.token ≠ .separator) :
    HasDetached (previous :: laid (some previous) (x :: xs)) ↔
      Detached (some previous) x ∨ HasDetached (x.token :: laid (some x.token) xs) := by
  rw [laid, laidOne]
  split
  · rename_i hgap
    obtain ⟨hspaced, -⟩ := Bool.and_eq_true_iff.1 hgap
    rw [List.cons_append, List.singleton_append, hasDetached_cons, hasDetached_cons]
    simp only [Detached, hspaced, Option.some.injEq, List.cons.injEq, true_and,
      reduceCtorEq, false_and, exists_false, false_or]
    apply or_congr_left
    constructor
    · rintro ⟨name, p, after, hname, hp, _⟩
      exact ⟨name, p, hname, hp⟩
    · rintro ⟨name, p, hname, hp⟩
      exact ⟨name, p, _, hname, hp, rfl⟩
  · rename_i hgap
    have hdetached : ¬ Detached (some previous) x := by
      rintro ⟨name, p, hname, hspaced, hp⟩
      apply hgap
      rw [hspaced, hname, hp]
      rfl
    rw [List.singleton_append, hasDetached_cons]
    simp only [List.cons.injEq, hx, false_and, and_false, exists_false, false_or, hdetached]

theorem attached_iff_behind {previous : Token} {xs : List ScannedToken}
    (hxs : ∀ x ∈ xs, x.token ≠ .separator) :
    Attached (some previous) xs ↔ ¬ HasDetached (previous :: laid (some previous) xs) := by
  induction xs generalizing previous with
  | nil => exact iff_of_true (.nil _) (not_hasDetached_of_length (by simp [laid]))
  | cons x xs ih =>
    rw [hasDetached_laid_cons (hxs x (by simp)), not_or,
      ← ih fun y hy => hxs y (List.mem_cons_of_mem x hy)]
    constructor
    · rintro (_ | ⟨h, hlater⟩)
      exact ⟨h, hlater⟩
    · rintro ⟨h, hlater⟩
      exact .cons h hlater

/-- No token of a line is detached from an option exactly when the grammar it is read
into shows none that is. -/
theorem attached_iff {xs : List ScannedToken} (hxs : ∀ x ∈ xs, x.token ≠ .separator) :
    Attached none xs ↔ ¬ HasDetached (laid none xs) := by
  cases xs with
  | nil => exact iff_of_true (.nil _) (not_hasDetached_of_length (by simp [laid]))
  | cons x xs =>
    have hlaid : laid none (x :: xs) = x.token :: laid (some x.token) xs := by
      simp [laid, laidOne, separates]
    rw [hlaid, ← attached_iff_behind fun y hy => hxs y (List.mem_cons_of_mem x hy)]
    constructor
    · rintro (_ | ⟨_, h⟩)
      exact h
    · exact fun h => .cons (by simp [Detached]) h

/-! ## The line -/

theorem Follows.newline_not_mem_rendered {rest : List Char} {xs : List ScannedToken}
    (h : Follows rest xs) (hxs : ∀ x ∈ xs, '\n' ∉ x.tail) (previous : Option Token) :
    '\n' ∉ rendered previous xs := by
  induction h generalizing previous with
  | last => simp [rendered, laid]
  | @cons _ _ x xs _ hread _ ih =>
    have hx : '\n' ∉ x.token.chars := fun hmem => hxs x (by simp)
      ((Token.read?_eq_some_iff.1 hread).mem_of_mem_chars hmem (by decide))
    have hlater := ih (fun y hy => hxs y (by simp [hy])) (some x.token)
    rw [rendered_cons]
    split
    · simp [hx, hlater]
    · simp [hx, hlater]

theorem scan_space (s : List Char) : scan false (' ' :: s) = scan true s := by
  have hspace : isLayout ' ' = true := rfl
  have hrest : (indent (' ' :: s)).rest = (indent s).rest := by
    simp [indent, Cut.run, hspace]
  have htaken : (indent (' ' :: s)).taken = ' ' :: (indent s).taken := by
    simp [indent, Cut.run, hspace]
  by_cases h : (indent s).rest = []
  · rw [scan_of_layout h, scan_of_layout (hrest.trans h)]
  · cases hread : Token.read? (indent s).rest with
    | none =>
      rw [scan_of_unreadable h hread, scan_of_unreadable (by rwa [hrest]) (by rwa [hrest]),
        hrest]
    | some read =>
      rw [scan_of_read true hread, scan_of_read false (by rwa [hrest]), hrest, htaken]
      simp

theorem parse_line {u : List Char} {name : Cut} (hname : binaryName? u = some name)
    {s : List Char} (hs : '\n' ∉ s) :
    parse (String.ofList (name.taken ++ ' ' :: s)) =
      ((Reading.start name.taken).continueWith ⟨name.taken ++ ' ' :: s, 1⟩ false
        (' ' :: s)).bind Reading.finish := by
  have hspace : isBinaryChar ' ' = false := by decide
  have hagain := binaryName?_append (R := ' ' :: s) hname (by simpa using hspace)
  have hchars := isBinaryChar_of_binaryName? hname
  have hindent : (indent (name.taken ++ ' ' :: s)).rest = name.taken ++ ' ' :: s := by
    cases htaken : name.taken with
    | nil =>
      rw [htaken] at hagain
      cases hagain
    | cons c t =>
      have hc : isLayout c = false := by
        refine Bool.eq_false_iff.2 fun hlayout => ?_
        have hbinary := hchars c (by simp [htaken])
        simp [isBinaryChar, isBlank_of_isLayout hlayout] at hbinary
      simp [indent, Cut.run, hc]
  have hlines : lines (name.taken ++ ' ' :: s) = [name.taken ++ ' ' :: s] := by
    have hnewline : '\n' ∉ name.taken := fun hmem => absurd (hchars '\n' hmem) (by decide)
    exact lines_of_one (by simp) (by simp [hnewline, hs])
  have hread : Reading.readLine none ⟨name.taken ++ ' ' :: s, 1⟩ =
      ((Reading.start name.taken).continueWith ⟨name.taken ++ ' ' :: s, 1⟩ false
        (' ' :: s)).map some := by
    simp [Reading.readLine, hindent, hagain]
  rw [parse, ofLines, String.toList_ofList, hlines]
  simp only [SourceLine.ofLines, List.zipIdx_cons, List.zipIdx_nil, List.map_cons, List.map_nil,
    List.foldlM_cons, List.foldlM_nil, hread]
  cases (Reading.start name.taken).continueWith ⟨name.taken ++ ' ' :: s, 1⟩ false (' ' :: s) with
  | error failure => rfl
  | ok r => rfl

theorem finish_continueWith_iff {name tail : List Char} {line : SourceLine} {g : Grammar} :
    ((Reading.start name).continueWith line false tail).bind Reading.finish =
        .ok ⟨String.ofList name, [g]⟩ ↔
      extend line .empty false tail = .ok g ∧ EndsWell g := by
  have hcurrent : (Reading.start name).current = .empty := rfl
  rw [Reading.continueWith, hcurrent]
  cases extend line .empty false tail with
  | error failure => simp [Except.bind]
  | ok g' =>
    simp only [Except.bind, Reading.finish, Except.ok.injEq]
    by_cases hends : EndsWell g'
    · have hlast : ∀ start next, g'.last? ≠ some (.bar start next) := hends
      split
      · rename_i hdangling
        split at hdangling
        · exact absurd ‹_› (hlast _ _)
        · cases hdangling
      · simp only [Except.ok.injEq, Usage.mk.injEq, Reading.start, List.nil_append,
          List.cons.injEq, and_true, true_and]
        exact ⟨fun h => ⟨h, h ▸ hends⟩, And.left⟩
    · split
      · simp only [reduceCtorEq, false_iff, not_and]
        intro heq
        subst heq
        exact hends
      · rename_i hdangling
        refine absurd (fun start next hlast => ?_) hends
        simp [hlast] at hdangling

/-- What it takes for a line to be read as the one form of a program. -/
theorem parse_line_iff {u : List Char} {name : Cut} (hname : binaryName? u = some name)
    {s : List Char} (hs : '\n' ∉ s) {g : Grammar} :
    parse (String.ofList (name.taken ++ ' ' :: s)) =
        .ok ⟨String.ofList name.taken, [g]⟩ ↔
      (scan true s).unreadable = none ∧ Fits none (scan true s).tokens ∧
        g.tokens = laid none (scan true s).tokens ∧ EndsWell g := by
  have htokens : ∀ tokens, g = Grammar.empty.append tokens ↔ g.tokens = tokens := fun tokens => by
    cases g
    simp [Grammar.empty, Grammar.append]
  rw [parse_line hname hs, finish_continueWith_iff, extend_eq_ok_iff, scan_space, htokens]
  simp only [and_assoc]
  rfl

/-! ## Reading a variant again -/

/-- A variant of a usage section that is written down behind the name of the program is
read as itself, unless it holds an option without a value and, behind a separator, a
positional token. -/
theorem parse_text_iff {text : String} {usage : Usage} (h : parse text = .ok usage)
    {g : Grammar} (hg : g ∈ usage.variants) :
    parse (usage.binary ++ " " ++ g.text) = .ok ⟨usage.binary, [g]⟩ ↔
      ¬ HasDetached g.tokens := by
  obtain ⟨⟨u, rest, hname⟩, hvariants⟩ := exists_source h
  obtain ⟨⟨xs, hsource⟩, hends⟩ := hvariants g hg
  obtain ⟨r, hfollows⟩ := hsource.follows
  have hchars : g.chars = rendered none xs := by
    rw [Grammar.chars, hsource.tokens, rendered]
  have hnewline : '\n' ∉ rendered none xs :=
    hfollows.newline_not_mem_rendered hsource.oneLine none
  have hline : usage.binary ++ " " ++ g.text =
      String.ofList (usage.binary.toList ++ ' ' :: rendered none xs) := by
    rw [Grammar.text, hchars]
    apply String.ext
    simp
  have hiff := parse_line_iff hname hnewline (g := g)
  rw [String.ofList_toList] at hiff
  rw [hline, hiff, hsource.tokens, ← attached_iff]
  · constructor
    · rintro ⟨-, -, hlaid, -⟩
      refine Classical.byContradiction fun hnot => ?_
      exact hfollows.laid_scan_ne (Or.inr rfl) (by simp [Detached]) hnot hlaid.symm
    · intro hattached
      rw [hfollows.scan_rendered hattached true]
      exact ⟨rfl, fits_relaid hsource.fits, (laid_relaid (Or.inr rfl) xs).symm, hends⟩
  · exact hfollows.token_ne_separator

/-- `run [ -n N | --all ] <file>...` is read again with the blanks gone, and `-a FILE`
with two blanks in it is not read again with one. -/
theorem parse_text_of_two_forms :
    parse "prog run [-n=N|--all] <file>..." = .ok ⟨"prog", [⟨[.word "run", .separator,
      .opening .optional none, .option "-n" (some "N"), .bar none none,
      .option "--all" none, .closing .optional none, .separator, .positional "<file>",
      .ellipsis]⟩]⟩ ∧
    parse "prog -a FILE" ≠ .ok ⟨"prog", [⟨[.option "-a" none, .separator,
      .positional "FILE"]⟩]⟩ := by
  have hparse : parse "prog run [ -n N | --all ]\n  <file> ...\nprog -a  FILE" =
      .ok ⟨"prog", [⟨[.word "run", .separator, .opening .optional none,
        .option "-n" (some "N"), .bar none none, .option "--all" none,
        .closing .optional none, .separator, .positional "<file>", .ellipsis]⟩,
        ⟨[.option "-a" none, .separator, .positional "FILE"]⟩]⟩ := by
    with_unfolding_all rfl
  constructor
  · apply (parse_text_iff hparse (List.mem_cons_self)).2
    simp [hasDetached_cons, not_hasDetached_of_length]
  · intro hagain
    apply (parse_text_iff hparse (List.mem_cons_of_mem _ List.mem_cons_self)).1 hagain
    exact ⟨[], "-a", "FILE", [], rfl⟩

end Synopsis.Usage
