import FrontendAudit.Proofs.Lines

namespace FrontendAudit.Text

inductive Ending
  | feed
  | returnFeed
  | bareReturn
  | unended
  deriving DecidableEq, Repr

def Ending.text : Ending → List Char
  | feed => ['\n']
  | returnFeed => ['\r', '\n']
  | bareReturn => ['\r']
  | unended => []

def written (ls : List (List Char × Ending)) : List Char :=
  ls.flatMap fun l ↦ l.1 ++ l.2.text

/-- Only the last line may go without an ending, and only if it is not empty. No empty line that a line feed
ends follows a bare carriage return: the two would be read as one break. -/
structure Readable (ls : List (List Char × Ending)) : Prop where
  breakFree : ∀ l ∈ ls, BreakFree l.1
  unended_last : ∀ front l back, ls = front ++ (l, .unended) :: back → l ≠ [] ∧ back = []
  kept_apart : ∀ front l back, ls ≠ front ++ (l, .bareReturn) :: ([], .feed) :: back

theorem readable_nil : Readable [] where
  breakFree := by simp
  unended_last := by simp
  kept_apart := by simp

theorem readable_cons_iff {l : List Char} {e : Ending} {rest : List (List Char × Ending)} :
    Readable ((l, e) :: rest) ↔
      BreakFree l ∧ (e = .unended → l ≠ [] ∧ rest = []) ∧
        (e = .bareReturn → rest.head? ≠ some ([], .feed)) ∧ Readable rest := by
  constructor
  · intro h
    refine ⟨h.breakFree (l, e) List.mem_cons_self, ?_, ?_, ?_, ?_, ?_⟩
    · intro he
      exact h.unended_last [] l rest (by rw [he]; rfl)
    · intro he hhead
      obtain ⟨back, hback⟩ := List.head?_eq_some_iff.1 hhead
      exact h.kept_apart [] l back (by rw [he, hback]; rfl)
    · intro l' hl'
      exact h.breakFree l' (List.mem_cons_of_mem _ hl')
    · intro front l' back hrest
      exact h.unended_last ((l, e) :: front) l' back (by rw [hrest]; rfl)
    · intro front l' back hrest
      exact h.kept_apart ((l, e) :: front) l' back (by rw [hrest]; rfl)
  · intro h
    obtain ⟨hl, hunended, hreturn, hrest⟩ := h
    refine ⟨List.forall_mem_cons.2 ⟨hl, hrest.breakFree⟩, ?_, ?_⟩
    · intro front l' back heq
      cases front with
      | nil =>
        cases heq
        exact hunended rfl
      | cons first front =>
        obtain ⟨-, heq⟩ := List.cons.inj heq
        exact hrest.unended_last front l' back heq
    · intro front l' back heq
      cases front with
      | nil =>
        cases heq
        exact hreturn rfl rfl
      | cons first front =>
        obtain ⟨-, heq⟩ := List.cons.inj heq
        exact hrest.kept_apart front l' back heq

instance (l : List Char) : Decidable (BreakFree l) :=
  List.decidableBAll (fun c ↦ c ≠ '\n' ∧ c ≠ '\r') l

instance decidableReadable : (ls : List (List Char × Ending)) → Decidable (Readable ls)
  | [] => isTrue readable_nil
  | (_, _) :: rest =>
    have := decidableReadable rest
    decidable_of_iff _ readable_cons_iff.symm

theorem written_cons (l : List Char) (e : Ending) (rest : List (List Char × Ending)) :
    written ((l, e) :: rest) = l ++ (e.text ++ written rest) := by
  rw [written, List.flatMap_cons, List.append_assoc]
  rfl

theorem head?_written_eq_feed_iff {ls : List (List Char × Ending)} (h : Readable ls) :
    (written ls).head? = some '\n' ↔ ls.head? = some ([], .feed) := by
  cases ls with
  | nil => simp [written]
  | cons first rest =>
    obtain ⟨l, e⟩ := first
    obtain ⟨hl, hunended, -, -⟩ := readable_cons_iff.1 h
    rw [written_cons]
    cases l with
    | nil => cases e <;> simp [Ending.text] at hunended ⊢
    | cons c l =>
      have hc : c ≠ '\n' := (hl c List.mem_cons_self).1
      simp [hc]

theorem Readable.lined {ls : List (List Char × Ending)} (h : Readable ls) :
    Lined (written ls) (ls.map Prod.fst) := by
  induction ls with
  | nil => exact .empty
  | cons first rest ih =>
    obtain ⟨l, e⟩ := first
    obtain ⟨hl, hunended, hreturn, hrest⟩ := readable_cons_iff.1 h
    rw [written_cons, List.map_cons]
    cases e with
    | feed => exact .feed hl (ih hrest)
    | returnFeed => exact .returnFeed hl (ih hrest)
    | bareReturn =>
      apply Lined.bareReturn hl _ (ih hrest)
      rw [Ne, head?_written_eq_feed_iff hrest]
      exact hreturn rfl
    | unended =>
      obtain ⟨hne, rfl⟩ := hunended rfl
      simpa [Ending.text, written] using Lined.unended hne hl

theorem Lined.exists_readable {cs : List Char} {ls : List (List Char)} (h : Lined cs ls) :
    ∃ es, Readable es ∧ es.map Prod.fst = ls ∧ written es = cs := by
  induction h with
  | empty => exact ⟨[], readable_nil, rfl, rfl⟩
  | @unended l hne hl =>
    refine ⟨[(l, .unended)], readable_cons_iff.2 ⟨hl, fun _ ↦ ⟨hne, rfl⟩, nofun, readable_nil⟩, rfl, ?_⟩
    simp [written, Ending.text]
  | @feed l rest ls hl _ ih =>
    obtain ⟨es, hes, rfl, rfl⟩ := ih
    exact ⟨(l, .feed) :: es, readable_cons_iff.2 ⟨hl, nofun, nofun, hes⟩, rfl, written_cons l _ es⟩
  | @returnFeed l rest ls hl _ ih =>
    obtain ⟨es, hes, rfl, rfl⟩ := ih
    exact ⟨(l, .returnFeed) :: es, readable_cons_iff.2 ⟨hl, nofun, nofun, hes⟩, rfl, written_cons l _ es⟩
  | @bareReturn l rest ls hl hrest _ ih =>
    obtain ⟨es, hes, rfl, rfl⟩ := ih
    rw [Ne, head?_written_eq_feed_iff hes] at hrest
    exact ⟨(l, .bareReturn) :: es, readable_cons_iff.2 ⟨hl, nofun, fun _ ↦ hrest, hes⟩, rfl,
      written_cons l _ es⟩

/-- Splitting into lines, which never fails, undoes every choice of endings that can be read back, and every
text is its lines under such a choice. -/
theorem lines_inverts_written :
    (∀ ls : List (List Char × Ending), Readable ls →
      splitLines (written ls) = .ok (ls.map Prod.fst) ∧ lines (written ls) = ls.map Prod.fst) ∧
      ∀ text : List Char, splitLines text = .ok (lines text) ∧ (∀ l ∈ lines text, BreakFree l) ∧
        ∃ ls : List (List Char × Ending), Readable ls ∧ ls.map Prod.fst = lines text ∧ written ls = text := by
  constructor
  · intro ls hls
    have hlines : lines (written ls) = ls.map Prod.fst := lined_iff.1 hls.lined
    exact ⟨hlines ▸ splitLines_eq (written ls), hlines⟩
  intro text
  obtain ⟨ls, hls, hlines, htext⟩ := (lined_iff.2 rfl : Lined text (lines text)).exists_readable
  refine ⟨splitLines_eq text, ?_, ls, hls, hlines, htext⟩
  intro l hl
  rw [← hlines] at hl
  obtain ⟨e, he, rfl⟩ := List.mem_map.1 hl
  exact hls.breakFree e he

theorem lines_inverts_written_mixed :
    let ls : List (List Char × Ending) :=
      [(['a'], .bareReturn), ([], .returnFeed), ([], .feed), ([], .bareReturn), ([], .bareReturn),
        (['b'], .unended)]
    Readable ls ∧ written ls = ['a', '\r', '\r', '\n', '\n', '\r', '\r', 'b'] ∧
      splitLines (written ls) = .ok [['a'], [], [], [], [], ['b']] := by
  intro ls
  have hls : Readable ls := by decide
  exact ⟨hls, rfl, (lines_inverts_written.1 ls hls).1⟩

end FrontendAudit.Text
