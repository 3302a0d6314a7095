import Synopsis.Proofs.Cardinality
import Synopsis.Proofs.OpenGroups

/-!
# The links that a fault leaves behind

Balancing that fails stops somewhere: at the closing half that the fault is about, or at the
end when a group is not closed (`Fault.stop`).  The tokens before this position have the links
that were set by then, and the tokens from it on are as they were.

* `LastBar` is what a frame knows of its group: which bar is to be linked next.
* `Progress` is the invariant of the pass.  `Progress.plain`, `Progress.opening`,
  `Progress.closing` and `Progress.bar` are its steps, and `exists_progress` is the run.
* `LeftBehind` is what the pass leaves.  A second pass has nothing to change in it
  (`LeftBehind.again`).

`link_of_fault` is the result.
-/

namespace Synopsis

/-! ## The pass -/

/-- The last bar before `n` that has this open group. -/
structure LastBar (ts : List Token) (n : Nat) (group bar : Option Nat) : Prop where
  isBar : ∀ m ∈ bar, m < n ∧ IsBar ts m ∧ OpenGroup ts m group
  last : ∀ i, i < n → IsBar ts i → OpenGroup ts i group → ∃ m ∈ bar, i ≤ m

namespace LastBar

variable {ts : List Token} {n : Nat} {group bar : Option Nat}

/-- A position that is no bar of the group changes nothing. -/
theorem stay (h : LastBar ts n group bar) (hn : IsBar ts n → ¬ OpenGroup ts n group) :
    LastBar ts (n + 1) group bar := by
  refine ⟨fun m hm => ?_, fun i hi hbar hgroup => ?_⟩
  · obtain ⟨hlt, hbar⟩ := h.isBar m hm
    exact ⟨Nat.lt_succ_of_lt hlt, hbar⟩
  · rcases Nat.lt_succ_iff_lt_or_eq.1 hi with hi | rfl
    · exact h.last i hi hbar hgroup
    · exact absurd hgroup (hn hbar)

theorem of_bar (hbar : IsBar ts n) (hgroup : OpenGroup ts n group) :
    LastBar ts (n + 1) group (some n) := by
  refine ⟨fun m hm => ?_, fun i hi _ _ => ⟨n, rfl, Nat.le_of_lt_succ hi⟩⟩
  obtain rfl := Option.some.inj hm
  exact ⟨Nat.lt_succ_self _, hbar, hgroup⟩

/-- A group that opens has no bar yet. -/
theorem of_opening (ts : List Token) (n : Nat) : LastBar ts (n + 1) (some n) none := by
  refine ⟨by simp, fun i hi _ hgroup => ?_⟩
  have hlt := hgroup.innermostOpen.isOpen.before
  omega

/-- No bar of the group stands behind its last one. -/
theorem not_behind (h : LastBar ts n group bar) {k i : Nat} (hk : k ∈ bar) (hki : k < i)
    (hi : i < n) (hbar : IsBar ts i) : ¬ SameOpenGroup ts k i := by
  intro hsame
  obtain ⟨m, hm, hle⟩ := h.last i hi hbar (hsame.right (h.isBar k hk).2.2)
  obtain rfl := Option.some.inj ((Option.mem_def.1 hk).symm.trans (Option.mem_def.1 hm))
  omega

/-- A bar whose group has a later one is not linked to `n`. -/
theorem mem_of_stops (h : LastBar ts n group bar) {k : Nat} (hk : k < n) (hbar : IsBar ts k)
    (hgroup : OpenGroup ts k group) (hstops : StopsAlternative ts k n) : k ∈ bar := by
  obtain ⟨m, hm, hle⟩ := h.last k hk hbar hgroup
  obtain ⟨hmn, hmbar, hmgroup⟩ := h.isBar m hm
  rcases Nat.lt_or_eq_of_le hle with hlt | rfl
  · exact absurd ⟨group, hgroup, hmgroup⟩ (hstops.first m hlt hmn hmbar)
  · exact hm

/-- The bars that are linked to a bar: the last one of its group before it. -/
theorem stops_iff_of_bar (h : LastBar ts n group bar) (hn : IsBar ts n)
    (hgroup : OpenGroup ts n group) {k : Nat} (hk : k < n) (hbar : IsBar ts k) :
    StopsAlternative ts k n ↔ k ∈ bar := by
  constructor
  · intro hstops
    rcases hstops.limit with ⟨-, -, hsame⟩ | ⟨o, -, hmates⟩
    · exact h.mem_of_stops hk hbar (hsame.left hgroup) hstops
    · exact absurd hn hmates.not_bar
  · intro hmem
    exact ⟨Or.inl ⟨hk, hn, group, (h.isBar k hmem).2.2, hgroup⟩,
      fun i hki hi hi' => h.not_behind hmem hki hi hi'⟩

/-- The bars that are linked to a closing half: the last one of its group. -/
theorem stops_iff_of_closing {o : Nat} (h : LastBar ts n (some o) bar) (hmates : Mates ts o n)
    {k : Nat} (hk : k < n) (hbar : IsBar ts k) : StopsAlternative ts k n ↔ k ∈ bar := by
  constructor
  · intro hstops
    rcases hstops.limit with ⟨-, hn, -⟩ | ⟨o', hopen, hmates'⟩
    · exact absurd hn hmates.not_bar
    · obtain rfl := hmates.opening_unique hmates'
      exact h.mem_of_stops hk hbar (.inside hopen) hstops
  · intro hmem
    exact ⟨Or.inr ⟨o, (h.isBar k hmem).2.2.innermostOpen, hmates⟩,
      fun i hki hi hi' => h.not_behind hmem hki hi hi'⟩

end LastBar

namespace Pending

variable {ts : List Token} {stack : List (Nat × GroupKind)}

/-- The group on top of the stack is the one that is open behind the tokens. -/
theorem openGroup (h : Pending ts stack) (after : List Token) :
    OpenGroup (ts ++ after) ts.length (stack.head?.map Prod.fst) := by
  cases h with
  | closed h =>
    refine .outside fun o ho => ?_
    have hclosed := not_openAt_of_wellNested [] after h (Nat.zero_le o)
    rw [List.nil_append, List.length_nil, Nat.zero_add] at hclosed
    exact hclosed ho
  | opened h hinside => exact .inside (innermostOpen_of_pending _ after _ _ hinside)

theorem mates {opening : Nat} {kind : GroupKind} (h : Pending ts ((opening, kind) :: stack))
    (q : Option Nat) (after : List Token) :
    Mates (ts ++ .closing kind q :: after) opening ts.length := by
  cases h with
  | @opened before inside _ _ p _ hinside =>
    refine ⟨before, inside, after, kind, p, q, by simp, hinside, rfl, ?_⟩
    rw [List.length_append, List.length_cons]
    omega

/-- The open groups open one behind the other. -/
theorem positions (h : Pending ts stack) :
    stack.Pairwise (fun group outer => outer.1 < group.1) ∧
      ∀ group ∈ stack, group.1 < ts.length := by
  induction h with
  | closed _ => exact ⟨.nil, by simp⟩
  | @opened before inside stack kind p _ _ ih =>
    obtain ⟨hsorted, hbefore⟩ := ih
    refine ⟨List.pairwise_cons.2 ⟨hbefore, hsorted⟩, fun group hgroup => ?_⟩
    rw [List.length_append, List.length_cons]
    rcases List.mem_cons.1 hgroup with rfl | hgroup
    · omega
    · have hlt := hbefore group hgroup
      omega

end Pending

namespace Linking

theorem getElem?_chain (tokens : List Token) (bar : Option Nat) (position k : Nat) :
    (chain tokens bar position)[k]? =
      tokens[k]?.map fun t => if bar = some k then t.withNext position else t := by
  cases bar with
  | none => simp
  | some bar =>
    rw [chain, List.getElem?_modify]
    simp

theorem getElem?_join (tokens : List Token) (opening closing k : Nat) :
    (join tokens opening closing)[k]? = tokens[k]?.map fun t =>
      if closing = k then (if opening = k then t.withPair closing else t).withPair opening
      else if opening = k then t.withPair closing else t := by
  rw [join, List.getElem?_modify, List.getElem?_modify]
  simp [Function.comp_def]

/-- The tokens before `p` have their links. -/
def Linked (ts : List Token) (p : Nat) (tokens : List Token) : Prop :=
  ∀ k old, k < p → ts[k]? = some old → ∃ new, tokens[k]? = some new ∧ LinkedUpTo ts p k old new

/-- What the pass has done when it has come to `n`.  The tokens before are linked and those
behind are as they were, and each frame has the last bar of its group. -/
structure Progress (ts : List Token) (n : Nat) (s : Linking) : Prop where
  bound : n ≤ ts.length
  pending : Pending (ts.take n) s.stack
  later : ∀ k, n ≤ k → s.tokens[k]? = ts[k]?
  linked : Linked ts n s.tokens
  top : LastBar ts n none s.topBar
  frames : ∀ frame ∈ s.frames, LastBar ts n (some frame.opening) frame.lastBar

theorem linked_succ {ts tokens : List Token} {n : Nat} {token : Token} (new : Token)
    (hget : ts[n]? = some token)
    (h : ∀ k old, k < n → ts[k]? = some old →
      ∃ new, tokens[k]? = some new ∧ LinkedUpTo ts (n + 1) k old new)
    (hnew : tokens[n]? = some new) (hlinked : LinkedUpTo ts (n + 1) n token new) :
    Linked ts (n + 1) tokens := by
  intro k old hk hold
  rcases Nat.lt_succ_iff_lt_or_eq.1 hk with hk | rfl
  · exact h k old hk hold
  · obtain rfl := Option.some.inj (hget.symm.trans hold)
    exact ⟨new, hnew, hlinked⟩

namespace Progress

variable {ts : List Token} {n : Nat} {s : Linking} {token : Token}

theorem lt (hget : ts[n]? = some token) : n < ts.length :=
  (List.getElem?_eq_some_iff.1 hget).1

theorem take_succ (hget : ts[n]? = some token) : ts.take (n + 1) = ts.take n ++ [token] := by
  rw [List.take_add_one, hget]
  rfl

theorem openGroup (h : Progress ts n s) : OpenGroup ts n s.start := by
  have hopen := h.pending.openGroup (ts.drop n)
  rw [List.take_append_drop, List.length_take_of_le h.bound] at hopen
  simpa [Linking.start, Linking.stack, Function.comp_def] using hopen

theorem lastBar (h : Progress ts n s) : LastBar ts n s.start s.lastBar := by
  obtain ⟨tokens, frames, topBar⟩ := s
  cases frames with
  | nil => exact h.top
  | cons frame outer => exact h.frames frame List.mem_cons_self

/-- The innermost open group closes at a closing half of its kind. -/
theorem mates {tokens : List Token} {frame : Frame} {outer : List Frame} {topBar : Option Nat}
    (h : Progress ts n ⟨tokens, frame :: outer, topBar⟩) {q : Option Nat}
    (hget : ts[n]? = some (.closing frame.kind q)) : Mates ts frame.opening n := by
  have hdrop : ts.drop n = .closing frame.kind q :: ts.drop (n + 1) := by
    obtain ⟨hlt, hclosing⟩ := List.getElem?_eq_some_iff.1 hget
    rw [List.drop_eq_getElem_cons hlt, hclosing]
  have hmates := Pending.mates h.pending q (ts.drop (n + 1))
  rwa [← hdrop, List.take_append_drop, List.length_take_of_le h.bound] at hmates

/-- The frames are those of different groups. -/
theorem ne_opening {tokens : List Token} {frame : Frame} {outer : List Frame}
    {topBar : Option Nat} (h : Progress ts n ⟨tokens, frame :: outer, topBar⟩) :
    ∀ other ∈ outer, other.opening ≠ frame.opening := by
  intro other hother
  have hsorted := (List.pairwise_cons.1 h.pending.positions.1).1
  have hlt := hsorted (other.opening, other.kind) (List.mem_map_of_mem hother)
  exact Nat.ne_of_lt hlt

theorem start : Progress ts 0 ⟨ts, [], none⟩ where
  bound := Nat.zero_le _
  pending := .closed .nil
  later := fun _ _ => rfl
  linked := fun _ _ hk => absurd hk (Nat.not_lt_zero _)
  top := ⟨by simp, fun _ hi => absurd hi (Nat.not_lt_zero _)⟩
  frames := by simp

/-- Only bars and closing halves change links. -/
theorem linked_of_quiet (h : Progress ts n s) (hget : ts[n]? = some token)
    (hquiet : ∀ k, ¬ Mates ts k n) (hbar : ¬ IsBar ts n)
    (htoken : LinkedUpTo ts (n + 1) n token token) : Linked ts (n + 1) s.tokens := by
  have hhere : s.tokens[n]? = some token := (h.later n (Nat.le_refl n)).trans hget
  refine linked_succ token hget (fun k old hk hold => ?_) hhere htoken
  obtain ⟨new, hnew, hlinked⟩ := h.linked k old hk hold
  refine ⟨new, hnew, hlinked.stay (hquiet k) fun _ _ _ hstops => ?_⟩
  rcases hstops.limit with ⟨-, hn, -⟩ | ⟨o, -, hmates⟩
  · exact hbar hn
  · exact hquiet o hmates

theorem not_isBar (hget : ts[n]? = some token) (h : ∀ start next, token ≠ .bar start next) :
    ¬ IsBar ts n := by
  rintro ⟨start, next, hbar⟩
  exact h start next (Option.some.inj (hget.symm.trans hbar))

theorem not_mates (hget : ts[n]? = some token) (h : ∀ kind q, token ≠ .closing kind q) (k : Nat) :
    ¬ Mates ts k n := by
  intro hmates
  obtain ⟨kind, q, hclosing⟩ := hmates.closing_get
  exact h kind q (Option.some.inj (hget.symm.trans hclosing))

/-- The pass leaves a plain token as it is. -/
theorem plain (h : Progress ts n s) (hget : ts[n]? = some token)
    (hplain : token.isStructural = false) : Progress ts (n + 1) s := by
  have hmark : ∀ mark : Token, mark.isStructural = true → token ≠ mark := by
    rintro mark hmark rfl
    rw [hplain] at hmark
    cases hmark
  have hbar : ¬ IsBar ts n := not_isBar hget fun _ _ => hmark _ rfl
  have hmates := not_mates hget fun _ _ => hmark _ rfl
  refine ⟨lt hget, ?_, fun k hk => h.later k (Nat.le_of_succ_le hk),
    h.linked_of_quiet hget hmates hbar (.plain hplain),
    h.top.stay fun hn => absurd hn hbar, fun frame hframe => ?_⟩
  · rw [take_succ hget]
    exact h.pending.append (.plain hplain .nil)
  · exact (h.frames frame hframe).stay fun hn => absurd hn hbar

/-- An opening half keeps its link for now, and a frame is added. -/
theorem opening {kind : GroupKind} {p : Option Nat} (h : Progress ts n s)
    (hget : ts[n]? = some (.opening kind p)) :
    Progress ts (n + 1) { s with frames := ⟨n, kind, none⟩ :: s.frames } := by
  have hbar : ¬ IsBar ts n := not_isBar hget (by simp)
  have hunclosed : LinkedUpTo ts (n + 1) n (.opening kind p) (.opening kind p) := by
    refine .unclosed fun j hj hmates => ?_
    have hlt := hmates.opening_lt_closing
    omega
  refine ⟨lt hget, ?_, fun k hk => h.later k (Nat.le_of_succ_le hk),
    h.linked_of_quiet hget (not_mates hget (by simp)) hbar hunclosed,
    h.top.stay fun hn => absurd hn hbar, fun frame hframe => ?_⟩
  · have hopened : Pending (ts.take n ++ [.opening kind p])
        (((ts.take n).length, kind) :: s.stack) := h.pending.opened .nil
    rwa [List.length_take_of_le h.bound, ← take_succ hget] at hopened
  · rcases List.mem_cons.1 hframe with rfl | hframe
    · exact .of_opening ts n
    · exact (h.frames frame hframe).stay fun hn => absurd hn hbar

section Closing

variable {tokens : List Token} {frame : Frame} {outer : List Frame} {topBar q : Option Nat}

/-- The tokens before a closing half that closes the innermost open group. -/
theorem linked_behind_closing (h : Progress ts n ⟨tokens, frame :: outer, topBar⟩)
    (hget : ts[n]? = some (.closing frame.kind q)) {k : Nat} {old : Token} (hk : k < n)
    (hold : ts[k]? = some old) :
    ∃ new, (chain (join tokens frame.opening n) frame.lastBar n)[k]? = some new ∧
      LinkedUpTo ts (n + 1) k old new := by
  have hmates := h.mates hget
  have hframe := h.frames frame List.mem_cons_self
  have hkn : n ≠ k := by omega
  obtain ⟨new, hnew, hlinked⟩ := h.linked k old hk hold
  have hnew : tokens[k]? = some new := hnew
  rw [getElem?_chain, getElem?_join, hnew]
  by_cases hopening : frame.opening = k
  · have hnotBar : frame.lastBar ≠ some k := by
      intro hbar
      obtain ⟨a, b, hbar⟩ := (hframe.isBar k hbar).2.1
      obtain ⟨kind, p, hopen⟩ := hmates.opening_get
      rw [hopening] at hopen
      cases hbar.symm.trans hopen
    exact ⟨new.withPair n, by simp [hopening, hnotBar, hkn], hlinked.close hold (hopening ▸ hmates)⟩
  · by_cases hbar : frame.lastBar = some k
    · have hisBar := (hframe.isBar k hbar).2.1
      have hstops := (hframe.stops_iff_of_closing hmates hk hisBar).2 hbar
      exact ⟨new.withNext n, by simp [hopening, hbar, hkn], hlinked.chain hold hisBar hstops⟩
    · refine ⟨new, by simp [hopening, hbar, hkn], hlinked.stay ?_ fun a b heq hstops => hbar ?_⟩
      · exact fun hother => hopening (hmates.opening_unique hother)
      · exact (hframe.stops_iff_of_closing hmates hk ⟨a, b, heq ▸ hold⟩).1 hstops

/-- A closing half is paired with the opening half of its group, and the last bar of the group
is linked to it. -/
theorem closing (h : Progress ts n ⟨tokens, frame :: outer, topBar⟩)
    (hget : ts[n]? = some (.closing frame.kind q)) :
    Progress ts (n + 1) ⟨chain (join tokens frame.opening n) frame.lastBar n, outer, topBar⟩ := by
  have hmates := h.mates hget
  have hopening := hmates.opening_lt_closing
  have hnotBar : ∀ k, n ≤ k → frame.lastBar ≠ some k := by
    intro k hk hbar
    have hlt := ((h.frames frame List.mem_cons_self).isBar k hbar).1
    omega
  have hquiet : ∀ group, IsBar ts n → ¬ OpenGroup ts n group :=
    fun _ hn => absurd hn hmates.not_bar
  refine ⟨lt hget, ?_, fun k hk => ?_, ?_, h.top.stay (hquiet _), fun other hother => ?_⟩
  · rw [take_succ hget]
    exact Pending.close h.pending q
  · rw [getElem?_chain, getElem?_join, h.later k (Nat.le_of_succ_le hk)]
    simp [hnotBar k (by omega), show n ≠ k by omega, show frame.opening ≠ k by omega]
  · refine linked_succ (.closing frame.kind (some frame.opening)) hget
      (fun _ _ => h.linked_behind_closing hget) ?_ (.closing hmates)
    have hn : tokens[n]? = some (.closing frame.kind q) := (h.later n (Nat.le_refl n)).trans hget
    rw [getElem?_chain, getElem?_join, hn]
    simp [hnotBar n (Nat.le_refl n), show frame.opening ≠ n by omega, Token.withPair]
  · exact (h.frames other (List.mem_cons_of_mem _ hother)).stay (hquiet _)

end Closing

section Bar

variable {a b : Option Nat}

/-- The tokens before a bar. -/
theorem linked_behind_bar (h : Progress ts n s) (hget : ts[n]? = some (.bar a b)) {k : Nat}
    {old : Token} (hk : k < n) (hold : ts[k]? = some old) :
    ∃ new, ((chain s.tokens s.lastBar n).set n (.bar s.start none))[k]? = some new ∧
      LinkedUpTo ts (n + 1) k old new := by
  have hisBar : IsBar ts n := ⟨a, b, hget⟩
  obtain ⟨new, hnew, hlinked⟩ := h.linked k old hk hold
  rw [List.getElem?_set_ne (by omega), getElem?_chain, hnew]
  by_cases hbar : s.lastBar = some k
  · have hkBar := (h.lastBar.isBar k hbar).2.1
    have hstops := (h.lastBar.stops_iff_of_bar hisBar h.openGroup hk hkBar).2 hbar
    exact ⟨new.withNext n, by simp [hbar], hlinked.chain hold hkBar hstops⟩
  · have hmates := not_mates hget (by simp) k
    refine ⟨new, by simp [hbar], hlinked.stay hmates fun x y heq hstops => hbar ?_⟩
    exact (h.lastBar.stops_iff_of_bar hisBar h.openGroup hk ⟨x, y, heq ▸ hold⟩).1 hstops

theorem linked_of_bar (h : Progress ts n s) (hget : ts[n]? = some (.bar a b)) :
    Linked ts (n + 1) ((chain s.tokens s.lastBar n).set n (.bar s.start none)) := by
  refine linked_succ (.bar s.start none) hget (fun _ _ => h.linked_behind_bar hget) ?_
    (.bar h.openGroup fun m => ?_)
  · have hlt : n < s.tokens.length :=
      (List.getElem?_eq_some_iff.1 ((h.later n (Nat.le_refl n)).trans hget)).1
    rw [List.getElem?_set_self (by simpa using hlt)]
  · -- What ends the alternative behind the new bar has not been read yet.
    refine iff_of_false (by simp) fun ⟨hm, hstops⟩ => ?_
    have hlt := hstops.lt ⟨a, b, hget⟩
    omega

/-- A bar is linked to the group that is open, and the bar before it is linked to it. -/
theorem bar (h : Progress ts n s) (hget : ts[n]? = some (.bar a b)) :
    Progress ts (n + 1) ((s.withTokens ((chain s.tokens s.lastBar n).set n
      (.bar s.start none))).withLastBar (some n)) := by
  have hisBar : IsBar ts n := ⟨a, b, hget⟩
  have hpending : Pending (ts.take (n + 1)) s.stack := by
    rw [take_succ hget]
    exact h.pending.append (.bar .nil)
  have hlater : ∀ k, n + 1 ≤ k →
      ((chain s.tokens s.lastBar n).set n (.bar s.start none))[k]? = ts[k]? := by
    intro k hk
    have hbar : s.lastBar ≠ some k := fun hbar => by
      have hlt := (h.lastBar.isBar k hbar).1
      omega
    rw [List.getElem?_set_ne (by omega), getElem?_chain, h.later k (by omega)]
    simp [hbar]
  have hlinked := h.linked_of_bar hget
  have hother : ∀ group ≠ s.start, IsBar ts n → ¬ OpenGroup ts n group :=
    fun group hne _ hgroup => hne (hgroup.unique h.openGroup)
  have hgroup := h.openGroup
  obtain ⟨tokens, frames, topBar⟩ := s
  cases frames with
  | nil =>
    exact ⟨lt hget, hpending, hlater, hlinked, .of_bar hisBar hgroup,
      fun other hmem => absurd hmem List.not_mem_nil⟩
  | cons frame outer =>
    refine ⟨lt hget, hpending, hlater, hlinked, h.top.stay (hother none (by simp [Linking.start])),
      fun other hmem => ?_⟩
    rcases List.mem_cons.1 hmem with rfl | hmem
    · exact .of_bar hisBar hgroup
    · refine (h.frames other (List.mem_cons_of_mem _ hmem)).stay (hother _ ?_)
      have hne := h.ne_opening other hmem
      simpa [Linking.start] using hne

end Bar

/-- One token that the pass reads. -/
theorem step {s' : Linking} (h : Progress ts n s) (hget : ts[n]? = some token)
    (hstep : s.step token n = .ok s') : Progress ts (n + 1) s' := by
  by_cases hplain : token.isStructural = false
  · rw [step_plain s hplain] at hstep
    obtain rfl := Except.ok.inj hstep
    exact h.plain hget hplain
  · cases token with
    | opening kind p =>
      obtain rfl := Except.ok.inj hstep
      exact h.opening hget
    | bar a b =>
      rw [step_bar] at hstep
      obtain rfl := Except.ok.inj hstep
      exact h.bar hget
    | closing kind q =>
      obtain ⟨tokens, frames, topBar⟩ := s
      cases frames with
      | nil => cases hstep
      | cons frame outer =>
        by_cases hkind : frame.kind = kind
        · subst hkind
          rw [step_closing] at hstep
          obtain rfl := Except.ok.inj hstep
          exact h.closing hget
        · simp [Linking.step, hkind] at hstep
    | separator => exact absurd rfl hplain
    | word name => exact absurd rfl hplain
    | option name value => exact absurd rfl hplain
    | positional placeholder => exact absurd rfl hplain
    | ellipsis => exact absurd rfl hplain

end Progress

end Linking

/-- Where a pass over that many tokens stops that ends with the fault: at the closing half that
the fault is about, or else at the end. -/
def Fault.stop (size : Nat) : Fault → Nat
  | unbalancedEnd position => position
  | mismatchedGroup _ closing => closing
  | unclosedGroup | tooManyVariants _ => size

namespace Linking

theorem stop_of_step {s : Linking} {token : Token} {n : Nat} {fault : Fault}
    (h : s.step token n = .error fault) (size : Nat) : fault.stop size = n := by
  obtain ⟨tokens, frames, topBar⟩ := s
  cases token with
  | separator | word | option | positional | ellipsis | opening => cases h
  | bar a b =>
    rw [step_bar] at h
    cases h
  | closing kind q =>
    cases frames with
    | nil =>
      obtain rfl := Except.error.inj h
      rfl
    | cons frame outer =>
      by_cases hkind : frame.kind = kind
      · simp [step, hkind] at h
      · simp only [step, hkind, if_false] at h
        obtain rfl := Except.error.inj h
        rfl

/-- A run that ends with a fault has come to where the fault stops it. -/
theorem exists_progress {ts rest : List Token} {n : Nat} {s s' : Linking} {fault : Fault}
    (h : Progress ts n s) (hrest : ts.drop n = rest) (hrun : s.run n rest = (s', some fault)) :
    Progress ts (fault.stop ts.length) s' := by
  induction rest generalizing n s with
  | nil =>
    have hn : n = ts.length := Nat.le_antisymm h.bound (List.drop_eq_nil_iff.1 hrest)
    rw [run] at hrun
    obtain ⟨rfl, hfault⟩ := Prod.mk.inj hrun
    split at hfault
    · cases hfault
    · obtain rfl := Option.some.inj hfault
      exact hn ▸ h
  | cons token rest ih =>
    have hget : ts[n]? = some token := by
      rw [← List.head?_drop, hrest, List.head?_cons]
    have hbehind : ts.drop (n + 1) = rest := by
      rw [← List.drop_drop, hrest, List.drop_one, List.tail_cons]
    cases hstep : s.step token n with
    | ok next =>
      rw [run_cons hstep] at hrun
      exact ih (h.step hget hstep) hbehind hrun
    | error cause =>
      rw [run, hstep] at hrun
      obtain ⟨rfl, hfault⟩ := Prod.mk.inj hrun
      obtain rfl := Option.some.inj hfault
      rw [stop_of_step hstep]
      exact h

end Linking

/-! ## What is left of a grammar that is refused -/

namespace Grammar

open Linking

/-- What a pass leaves behind that ends with this fault.  All tokens are the same but for their
links.  Those from the fault on have the links that they had, and those before it are linked as
far as the pass has come. -/
structure LeftBehind (g left : Grammar) (fault : Fault) : Prop where
  bound : fault.stop g.size ≤ g.size
  unlinked : left.unlinked = g.unlinked
  later : ∀ k, fault.stop g.size ≤ k → left.get? k = g.get? k
  earlier : ∀ k old, k < fault.stop g.size → g.get? k = some old →
    ∃ new, left.get? k = some new ∧ LinkedUpTo g.tokens (fault.stop g.size) k old new

theorem leftBehind_of_fault {g : Grammar} {fault : Fault} (h : g.balance = .error fault) :
    LeftBehind g g.link.1 fault := by
  obtain ⟨left, hleft⟩ : ∃ left, run ⟨g.tokens, [], none⟩ 0 g.tokens = (left, some fault) :=
    ⟨_, Prod.ext rfl (balance_eq_error_iff.1 h)⟩
  have hprogress := exists_progress .start List.drop_zero hleft
  have hlink : g.link.1 = ⟨left.tokens⟩ := by rw [link, hleft]
  rw [hlink]
  refine ⟨hprogress.bound, congrArg Grammar.mk (List.ext_getElem? fun k => ?_), hprogress.later,
    hprogress.linked⟩
  rw [List.getElem?_map, List.getElem?_map]
  rcases Nat.lt_or_ge k (fault.stop g.tokens.length) with hk | hk
  · have hget := List.getElem?_eq_getElem (Nat.lt_of_lt_of_le hk hprogress.bound)
    obtain ⟨new, hnew, hlinked⟩ := hprogress.linked k _ hk hget
    rw [hnew, hget, Option.map_some, Option.map_some, hlinked.unlinked_eq]
  · rw [hprogress.later k hk]

/-- A pass over what is left behind changes nothing. -/
theorem LeftBehind.again {g left last : Grammar} {fault : Fault} (h : LeftBehind g left fault)
    (h' : LeftBehind left last fault) : last = left := by
  have hshape : g.tokens.map Token.unlinked = left.tokens.map Token.unlinked :=
    congrArg Grammar.tokens h.unlinked.symm
  have hsize : left.size = g.size := by
    simpa [size] using congrArg List.length hshape.symm
  have hlater := h'.later
  have hearlier := h'.earlier
  rw [hsize] at hlater hearlier
  refine congrArg Grammar.mk (List.ext_getElem? fun k => ?_)
  rcases Nat.lt_or_ge k (fault.stop g.size) with hk | hk
  · have hget := List.getElem?_eq_getElem (Nat.lt_of_lt_of_le hk h.bound)
    obtain ⟨new, hnew, hlinked⟩ := h.earlier k _ hk hget
    obtain ⟨new', hnew', hlinked'⟩ := hearlier k new hk hnew
    rw [hlinked.again (hlinked'.of_shape hshape)] at hnew'
    exact hnew'.trans hnew.symm
  · exact hlater k hk

/-- A grammar that cannot be balanced is left with the links that were set before the fault, and
balancing it once more ends with the same fault and changes nothing. -/
theorem link_of_fault {g : Grammar} {fault : Fault} (h : g.balance = .error fault) :
    LeftBehind g g.link.1 fault ∧ g.link.1.balance = .error fault ∧
      g.link.1.link.1 = g.link.1 := by
  have hleft := leftBehind_of_fault h
  have hagain : g.link.1.balance = .error fault := by
    rw [← balance_unlinked_eq_error_iff, hleft.unlinked, balance_unlinked_eq_error_iff]
    exact h
  exact ⟨hleft, hagain, hleft.again (leftBehind_of_fault hagain)⟩

/-- `(a|[b|c]|[|))` with links of other sequences. -/
def mismatched : Grammar :=
  ⟨[.opening .required (some 9), .word "a", .bar (some 7) (some 1), .opening .optional none,
    .word "b", .bar none none, .word "c", .closing .optional (some 2), .bar none none,
    .opening .optional (some 4), .bar none (some 0), .closing .required none,
    .closing .required (some 1)]⟩

/-- The links of `mismatched` that are set before the fault: those of the inner group, and those
between the bars of the outer one. -/
def mismatchedLeft : Grammar :=
  ⟨[.opening .required (some 9), .word "a", .bar (some 0) (some 8), .opening .optional (some 7),
    .word "b", .bar (some 3) (some 7), .word "c", .closing .optional (some 3), .bar (some 0) none,
    .opening .optional (some 4), .bar (some 9) none, .closing .required none,
    .closing .required (some 1)]⟩

theorem link_of_fault_mismatched :
    mismatched.balance = .error (.mismatchedGroup 9 11) ∧
      LeftBehind mismatched mismatchedLeft (.mismatchedGroup 9 11) ∧
      mismatchedLeft.balance = .error (.mismatchedGroup 9 11) ∧
      mismatchedLeft.link.1 = mismatchedLeft := by
  have hfault : mismatched.balance = .error (.mismatchedGroup 9 11) := by rfl
  have hleft : mismatched.link.1 = mismatchedLeft := by rfl
  have h := link_of_fault hfault
  rw [hleft] at h
  exact ⟨hfault, h⟩

end Grammar

end Synopsis
