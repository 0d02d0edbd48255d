import FrontendAudit.Text.Lines

namespace FrontendAudit.Text

def BreakFree (l : List Char) : Prop :=
  ∀ c ∈ l, c ≠ '\n' ∧ c ≠ '\r'

inductive Lined : List Char → List (List Char) → Prop
  | empty : Lined [] []
  | unended {l : List Char} : l ≠ [] → BreakFree l → Lined l [l]
  | feed {l rest : List Char} {ls : List (List Char)} :
      BreakFree l → Lined rest ls → Lined (l ++ '\n' :: rest) (l :: ls)
  | returnFeed {l rest : List Char} {ls : List (List Char)} :
      BreakFree l → Lined rest ls → Lined (l ++ '\r' :: '\n' :: rest) (l :: ls)
  | bareReturn {l rest : List Char} {ls : List (List Char)} :
      BreakFree l → rest.head? ≠ some '\n' → Lined rest ls → Lined (l ++ '\r' :: rest) (l :: ls)

theorem linesFrom_break {c : Char} {cs : List Char} (hc : c = '\n' ∨ c = '\r')
    (hcs : c = '\r' → cs.head? ≠ some '\n') (done : List (List Char)) (current : List Char) :
    linesFrom done current (c :: cs) = linesFrom (current.reverse :: done) [] cs := by
  rw [linesFrom, if_pos hc]
  intro rest hr he
  exact hcs hr (by rw [he]; rfl)

theorem linesFrom_breakFree {l : List Char} (hl : BreakFree l) (done : List (List Char))
    (current cs : List Char) :
    linesFrom done current (l ++ cs) = linesFrom done (l.reverse ++ current) cs := by
  induction l generalizing current with
  | nil => rfl
  | cons c l ih =>
    obtain ⟨hn, hr⟩ := hl c List.mem_cons_self
    have hl' : BreakFree l := fun d hd ↦ hl d (List.mem_cons_of_mem c hd)
    rw [List.cons_append, linesFrom, if_neg (by simp [hn, hr]), ih hl', List.reverse_cons,
      List.append_assoc]
    · rfl
    · intro _ he
      exact absurd he hr

theorem Lined.linesFrom_eq {cs : List Char} {ls : List (List Char)} (h : Lined cs ls)
    (done : List (List Char)) : linesFrom done [] cs = done.reverse ++ ls := by
  induction h generalizing done with
  | empty => simp [linesFrom]
  | @unended l hne hl =>
    rw [← List.append_nil l, linesFrom_breakFree hl, List.append_nil]
    simp [linesFrom, hne]
  | @feed l rest ls hl _ ih =>
    rw [linesFrom_breakFree hl, linesFrom_break (.inl rfl) fun h ↦ absurd h (by decide), ih]
    simp
  | @returnFeed l rest ls hl _ ih =>
    rw [linesFrom_breakFree hl, linesFrom, ih]
    simp
  | @bareReturn l rest ls hl hrest _ ih =>
    rw [linesFrom_breakFree hl, linesFrom_break (.inr rfl) fun _ ↦ hrest, ih]
    simp

theorem breakFree_or_exists_break (cs : List Char) :
    BreakFree cs ∨ ∃ l c rest, cs = l ++ c :: rest ∧ BreakFree l ∧ (c = '\n' ∨ c = '\r') := by
  induction cs with
  | nil => exact .inl fun c hc ↦ absurd hc List.not_mem_nil
  | cons c cs ih =>
    by_cases hc : c = '\n' ∨ c = '\r'
    · exact .inr ⟨[], c, cs, rfl, fun d hd ↦ absurd hd List.not_mem_nil, hc⟩
    · have hne : c ≠ '\n' ∧ c ≠ '\r' := by simpa using hc
      cases ih with
      | inl hfree => exact .inl (List.forall_mem_cons.2 ⟨hne, hfree⟩)
      | inr hbreak =>
        obtain ⟨l, d, rest, rfl, hl, hd⟩ := hbreak
        exact .inr ⟨c :: l, d, rest, rfl, List.forall_mem_cons.2 ⟨hne, hl⟩, hd⟩

theorem exists_lined (cs : List Char) : ∃ ls, Lined cs ls := by
  cases breakFree_or_exists_break cs with
  | inl hfree =>
    by_cases hne : cs = []
    · exact ⟨[], hne ▸ .empty⟩
    · exact ⟨[cs], .unended hne hfree⟩
  | inr hbreak =>
    obtain ⟨l, c, rest, rfl, hl, hc⟩ := hbreak
    obtain ⟨ls, hls⟩ := exists_lined rest
    cases hc with
    | inl hc => exact ⟨l :: ls, hc ▸ .feed hl hls⟩
    | inr hc =>
      subst hc
      by_cases hhead : rest.head? = some '\n'
      · obtain ⟨rest', rfl⟩ := List.head?_eq_some_iff.1 hhead
        obtain ⟨ls', hls'⟩ := exists_lined rest'
        exact ⟨l :: ls', .returnFeed hl hls'⟩
      · exact ⟨l :: ls, .bareReturn hl hhead hls⟩
termination_by cs.length
decreasing_by all_goals simp_all; omega

theorem lined_iff {cs : List Char} {ls : List (List Char)} : Lined cs ls ↔ lines cs = ls := by
  constructor
  · intro h
    exact h.linesFrom_eq []
  · intro h
    obtain ⟨ls', hls'⟩ := exists_lined cs
    have he : lines cs = ls' := hls'.linesFrom_eq []
    rwa [← h, he]

section Replacement

variable {old new : List Char}

theorem replaceFrom_eq (done : List Char) (skip : Nat) (cs : List Char) :
    replaceFrom old new done skip cs = done.reverse ++ replaceFrom old new [] skip cs := by
  induction cs generalizing done skip with
  | nil => simp [replaceFrom]
  | cons c cs ih =>
    cases skip with
    | succ n => rw [replaceFrom, replaceFrom, ih]
    | zero =>
      rw [replaceFrom, replaceFrom]
      split
      · rw [ih (new.reverse ++ done), ih (new.reverse ++ [])]
        simp
      · rw [ih (c :: done), ih [c]]
        simp

theorem replaceFrom_skip (skipped cs : List Char) :
    replaceFrom old new [] skipped.length (skipped ++ cs) = replaceAll old new cs := by
  induction skipped with
  | nil => rfl
  | cons c skipped ih => exact ih

theorem replaceAll_cons {c : Char} {cs : List Char} (h : ¬old <+: c :: cs) :
    replaceAll old new (c :: cs) = c :: replaceAll old new cs := by
  rw [← List.isPrefixOf_iff_prefix] at h
  rw [replaceAll, replaceFrom, if_neg h, replaceFrom_eq]
  rfl

theorem replaceAll_append {first : Char} {rest : List Char} (hold : old = first :: rest) (cs : List Char) :
    replaceAll old new (old ++ cs) = new ++ replaceAll old new cs := by
  have hhere : old.isPrefixOf (first :: (rest ++ cs)) = true := by
    rw [List.isPrefixOf_iff_prefix, hold]
    exact List.prefix_append (first :: rest) cs
  have hrest : old.length - 1 = rest.length := by rw [hold, List.length_cons, Nat.add_sub_cancel]
  have htext : old ++ cs = first :: (rest ++ cs) := by rw [hold, List.cons_append]
  rw [htext, replaceAll, replaceFrom, if_pos hhere, replaceFrom_eq, hrest, replaceFrom_skip]
  simp

theorem replaceAll_of_not_mem {first : Char} {l : List Char} (hold : old.head? = some first) (h : first ∉ l)
    (cs : List Char) : replaceAll old new (l ++ cs) = l ++ replaceAll old new cs := by
  induction l with
  | nil => rfl
  | cons c l ih =>
    rw [List.mem_cons, not_or] at h
    have hhere : ¬old <+: c :: (l ++ cs) := by
      intro hpre
      obtain ⟨rest, rfl⟩ := List.head?_eq_some_iff.1 hold
      exact h.1 (List.cons_prefix_cons.1 hpre).1
    rw [List.cons_append, replaceAll_cons hhere, ih h.2, List.cons_append]

end Replacement

section Feeds

variable {l : List Char}

theorem BreakFree.return_not_mem (hl : BreakFree l) : '\r' ∉ l :=
  fun h ↦ (hl _ h).2 rfl

theorem withFeeds_breakFree (hl : BreakFree l) (cs : List Char) : withFeeds (l ++ cs) = l ++ withFeeds cs := by
  rw [withFeeds, replaceAll_of_not_mem rfl hl.return_not_mem, replaceAll_of_not_mem rfl hl.return_not_mem,
    withFeeds]

theorem withFeeds_feed (cs : List Char) : withFeeds ('\n' :: cs) = '\n' :: withFeeds cs := by
  rw [withFeeds, replaceAll_cons (by simp), replaceAll_cons (by simp), withFeeds]

theorem withFeeds_returnFeed (cs : List Char) : withFeeds ('\r' :: '\n' :: cs) = '\n' :: withFeeds cs := by
  have hpair : replaceAll ['\r', '\n'] ['\n'] ('\r' :: '\n' :: cs) =
      '\n' :: replaceAll ['\r', '\n'] ['\n'] cs := replaceAll_append rfl cs
  rw [withFeeds, hpair, replaceAll_cons (by simp), withFeeds]

theorem withFeeds_return {cs : List Char} (h : cs.head? ≠ some '\n') :
    withFeeds ('\r' :: cs) = '\n' :: withFeeds cs := by
  have halone : ¬['\r', '\n'] <+: '\r' :: cs := by
    rintro ⟨rest, hrest⟩
    rw [← (List.cons.inj hrest).2] at h
    exact h rfl
  have hreturn : ∀ text, replaceAll ['\r'] ['\n'] ('\r' :: text) = '\n' :: replaceAll ['\r'] ['\n'] text :=
    replaceAll_append rfl
  rw [withFeeds, replaceAll_cons halone, hreturn, withFeeds]

end Feeds

section Scan

variable {limit : Nat} {l : List Char}

theorem foldl_size (n : Nat) (cs : List Char) : cs.foldl (fun n c ↦ n + c.utf8Size) n = n + size cs := by
  induction cs generalizing n with
  | nil => rfl
  | cons c cs ih =>
    have hcons : size (c :: cs) = 0 + c.utf8Size + size cs := ih (0 + c.utf8Size)
    rw [List.foldl_cons, ih, hcons]
    omega

theorem size_append (a b : List Char) : size (a ++ b) = size a + size b := by
  rw [size, List.foldl_append, foldl_size, ← size]

theorem size_cons (c : Char) (cs : List Char) : size (c :: cs) = c.utf8Size + size cs := by
  rw [size, List.foldl_cons, foldl_size, Nat.zero_add]

theorem token_reverse (hl : BreakFree l) : token l.reverse = l := by
  have hlast : ∀ cs, l.reverse ≠ '\r' :: cs := by
    intro cs h
    exact hl.return_not_mem (List.mem_reverse.1 (h ▸ List.mem_cons_self))
  rw [token, List.reverse_reverse]
  exact fun cs h ↦ hlast cs h

theorem scanLines_breakFree (hl : BreakFree l) (done : List (List Char)) (current : List Char) {bytes : Nat}
    (h : bytes + size l < limit) (cs : List Char) :
    scanLines limit done current bytes (l ++ cs) =
      scanLines limit done (l.reverse ++ current) (bytes + size l) cs := by
  induction l generalizing current bytes with
  | nil => rfl
  | cons c l ih =>
    obtain ⟨hc, hrest⟩ := List.forall_mem_cons.1 hl
    rw [size_cons] at h
    rw [List.cons_append, scanLines, if_neg hc.1, if_neg (by omega), ih hrest _ (by omega), size_cons,
      Nat.add_assoc]
    simp

theorem scanLines_line (hl : BreakFree l) (done : List (List Char)) {cs : List Char}
    (h : size (l ++ '\n' :: cs) < limit) :
    scanLines limit done [] 0 (l ++ '\n' :: cs) = scanLines limit (l :: done) [] 0 cs := by
  rw [size_append] at h
  rw [scanLines_breakFree hl done [] (by omega), scanLines, if_pos rfl, List.append_nil, token_reverse hl]

/-- One finished line in front of a text whose lines are known. -/
theorem scanLines_line_ok (hl : BreakFree l) {cs : List Char} {ls : List (List Char)}
    (hcs : ∀ done, size cs < limit → scanLines limit done [] 0 cs = .ok (done.reverse ++ ls))
    (done : List (List Char)) (h : size (l ++ '\n' :: cs) < limit) :
    scanLines limit done [] 0 (l ++ '\n' :: cs) = .ok (done.reverse ++ l :: ls) := by
  rw [scanLines_line hl done h]
  rw [size_append, size_cons] at h
  rw [hcs (l :: done) (by omega)]
  simp

theorem Lined.scanLines_eq {cs : List Char} {ls : List (List Char)} (h : Lined cs ls) (done : List (List Char))
    (hsize : size (withFeeds cs) < limit) : scanLines limit done [] 0 (withFeeds cs) = .ok (done.reverse ++ ls) := by
  induction h generalizing done with
  | empty => simp [withFeeds, replaceAll, replaceFrom, scanLines]
  | @unended l hne hl =>
    have hsame : withFeeds l = l := by simpa [withFeeds, replaceAll, replaceFrom] using withFeeds_breakFree hl []
    rw [hsame] at hsize ⊢
    have hscan := scanLines_breakFree hl done [] (by omega : 0 + size l < limit) []
    rw [List.append_nil] at hscan
    rw [hscan, List.append_nil, scanLines, token_reverse hl]
    simp [hne]
  | @feed l rest ls hl _ ih =>
    rw [withFeeds_breakFree hl, withFeeds_feed] at hsize ⊢
    exact scanLines_line_ok hl ih done hsize
  | @returnFeed l rest ls hl _ ih =>
    rw [withFeeds_breakFree hl, withFeeds_returnFeed] at hsize ⊢
    exact scanLines_line_ok hl ih done hsize
  | @bareReturn l rest ls hl hrest _ ih =>
    rw [withFeeds_breakFree hl, withFeeds_return hrest] at hsize ⊢
    exact scanLines_line_ok hl ih done hsize

/-- No line is too long, since the scan has room for more than the text. -/
theorem splitLines_eq (text : List Char) : splitLines text = .ok (lines text) := by
  have hlined : Lined text (lines text) := lined_iff.2 rfl
  exact hlined.scanLines_eq [] (by omega)

end Scan

end FrontendAudit.Text
