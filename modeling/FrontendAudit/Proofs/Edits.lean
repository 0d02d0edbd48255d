import FrontendAudit.Disk.Workspace
import FrontendAudit.Proofs.Tree

namespace FrontendAudit.Disk

namespace Node

structure KeptEntries (P : String → Prop) (entries : List (String × Node)) : Prop where
  ascending : Keyed.Ascending entries
  named : ∀ e ∈ entries, P e.1
  below : ∀ e ∈ entries, e.2.WellFormed

/-- A directory whose own entries may have names that entries elsewhere have not. -/
inductive Kept (P : String → Prop) : Node → Prop
  | dir {entries : List (String × Node)} (kept : KeptEntries P entries) : Kept P (dir entries)

namespace KeptEntries

variable {P : String → Prop} {entries : List (String × Node)} {s : String} {n : Node}

theorem lookup (h : KeptEntries P entries) (hfound : entries.lookup s = some n) : P s ∧ n.WellFormed :=
  ⟨h.named _ (mem_of_lookup hfound), h.below _ (mem_of_lookup hfound)⟩

theorem put (h : KeptEntries P entries) (hs : P s) (hn : n.WellFormed) : KeptEntries P (Keyed.put s n entries) where
  ascending := Keyed.ascending_put s n h.ascending
  named e he := by
    rcases Keyed.eq_or_mem_of_mem_put he with rfl | he
    · exact hs
    · exact h.named e he
  below e he := by
    rcases Keyed.eq_or_mem_of_mem_put he with rfl | he
    · exact hn
    · exact h.below e he

theorem drop (h : KeptEntries P entries) (s : String) : KeptEntries P (Keyed.drop s entries) where
  ascending := h.ascending.filter _
  named e he := h.named e (List.mem_filter.1 he).1
  below e he := h.below e (List.mem_filter.1 he).1

end KeptEntries

theorem wellFormed_emptyDir : (dir []).WellFormed :=
  .dir List.Pairwise.nil (by simp) (by simp)

section Edits

variable {P : String → Prop} {root : Node}

/-- A change in a place below a directory leaves a directory. What was there before is found under names that
entries have, so only the last name of the place can be new. -/
theorem exists_alter_dir (change : Option Node → Option Node) (hP : ∀ s, Path.IsName s → P s)
    {names : List String} (hne : names ≠ [])
    (hnew : ∀ m? m, change m? = some m → m.WellFormed ∧ ∀ s, names.getLast? = some s → Path.IsName s)
    {entries : List (String × Node)} (h : KeptEntries P entries) :
    ∃ entries', alter change (some (dir entries)) names = some (dir entries') ∧ KeptEntries P entries' := by
  induction names generalizing P entries with
  | nil => exact absurd rfl hne
  | cons s rest ih =>
    have hinner : ∀ n, alter change (entries.lookup s) rest = some n → P s ∧ n.WellFormed := by
      intro n hn
      cases rest with
      | nil =>
        obtain ⟨hwf, hname⟩ := hnew (entries.lookup s) n (by simpa only [alter] using hn)
        exact ⟨hP s (hname s rfl), hwf⟩
      | cons s' rest =>
        cases hfound : entries.lookup s with
        | none =>
          rw [hfound] at hn
          cases hn
        | some m =>
          rw [hfound] at hn
          obtain ⟨hs, hm⟩ := h.lookup hfound
          cases hm with
          | file content =>
            cases hn
            exact ⟨hs, .file content⟩
          | link target =>
            cases hn
            exact ⟨hs, .link target⟩
          | dir ascending isName below =>
            obtain ⟨inner, heq, hinner⟩ := ih (fun _ h ↦ h) (List.cons_ne_nil s' rest) hnew ⟨ascending, isName, below⟩
            rw [heq] at hn
            cases hn
            exact ⟨hs, .dir hinner.ascending hinner.named hinner.below⟩
    rw [alter]
    cases hn : alter change (entries.lookup s) rest with
    | some n => exact ⟨_, rfl, h.put (hinner n hn).1 (hinner n hn).2⟩
    | none => exact ⟨_, rfl, h.drop s⟩

variable (hP : ∀ s, Path.IsName s → P s)

include hP

theorem Kept.set (h : Kept P root) (place : Place) {n : Node} (hn : n.WellFormed) : Kept P (root.set place n) := by
  cases place with
  | nil => exact h
  | cons name above =>
    rw [Node.set]
    split
    · next hname =>
      obtain ⟨kept⟩ := h
      have hlast : ∀ s, (name :: above).reverse.getLast? = some s → Path.IsName s := by
        intro s hs
        rw [List.getLast?_reverse] at hs
        exact Option.some.inj hs ▸ hname
      obtain ⟨entries, heq, hkept⟩ := exists_alter_dir (fun _ ↦ some n) hP (by simp)
        (fun _ m hm ↦ ⟨Option.some.inj hm ▸ hn, hlast⟩) kept
      rw [heq]
      exact .dir hkept
    · exact h

theorem Kept.clear (h : Kept P root) (place : Place) : Kept P (root.clear place) := by
  rw [Node.clear]
  by_cases hne : place.reverse = []
  · rw [hne]
    exact h
  · obtain ⟨kept⟩ := h
    obtain ⟨entries, heq, hkept⟩ := exists_alter_dir (fun _ ↦ none) hP hne (fun _ _ hm ↦ nomatch hm) kept
    rw [heq]
    exact .dir hkept

theorem Kept.makeDirs (h : Kept P root) (start : Place) (done steps : List String) :
    Kept P (root.makeDirs start done steps) := by
  induction steps generalizing root done with
  | nil => exact h
  | cons s rest ih =>
    rw [Node.makeDirs]
    split
    · exact ih h _
    · split
      · exact ih (h.set hP _ wellFormed_emptyDir) _
      · exact h

theorem Kept.writeFile (h : Kept P root) (start : Place) (path : String) (content : ByteArray) :
    Kept P (root.writeFile start path content) := by
  have hdirs := h.makeDirs hP start [] (Path.steps path).dropLast
  rw [Node.writeFile]
  split
  · exact hdirs
  · split
    · exact hdirs
    · exact hdirs.set hP _ (.file content)

theorem Kept.makeLink (h : Kept P root) (start : Place) (path target : String) :
    Kept P (root.makeLink start path target) := by
  have hdirs := h.makeDirs hP start [] (Path.steps path).dropLast
  rw [Node.makeLink]
  split
  · exact hdirs.set hP _ (.link target)
  · exact hdirs

end Edits

theorem Kept.proper {P : String → Prop} {root : Node} {place : Place} {t : String} (h : Kept P root)
    (hroot : root.reach place t ≠ .ok (some root)) : root.Proper place t where
  wellFormed n hn := by
    have hpassed : n.WellFormed ∨ n = root := by
      refine reach_of_hereditary (P := fun m ↦ m.WellFormed ∨ m = root) ?_ (.inr rfl) hn
      rintro entries name m (hdir | rfl) hfound
      · cases hdir with
        | dir ascending isName below => exact .inl (below _ (mem_of_lookup hfound))
      · obtain ⟨kept⟩ := h
        exact .inl (kept.lookup hfound).2
    rcases hpassed with hwf | rfl
    · exact hwf
    · exact absurd hn hroot

end Node

namespace Workspace

def IsRootName (name : String) : Prop :=
  Path.IsName name ∨ name = baseName

theorem kept_empty : empty.root.Kept IsRootName := by
  refine .dir ⟨List.pairwise_singleton _ _, ?_, ?_⟩
  · simp [IsRootName]
  · simp only [List.mem_singleton, forall_eq]
    exact Node.wellFormed_emptyDir

theorem kept_edit {w : Workspace} (h : w.root.Kept IsRootName) (e : Edit) : (w.edit e).root.Kept IsRootName := by
  have hname : ∀ s, Path.IsName s → IsRootName s := fun _ ↦ .inl
  cases e with
  | enter path =>
    have hdirs : (w.root.makeDir w.cwd path).Kept IsRootName := h.makeDirs hname w.cwd [] _
    rw [edit, enter]
    split
    · exact hdirs
    · exact hdirs
  | writeFile path content => exact h.writeFile hname w.cwd path content
  | makeLink path target => exact h.makeLink hname w.cwd path target
  | makeDir path => exact h.makeDirs hname w.cwd [] _
  | remove path =>
    rw [edit, remove]
    split
    · exact h.clear hname _
    · exact h
  | addFault f => exact h
  | clearFaults => exact h

theorem kept_foldl_edit {w : Workspace} (h : w.root.Kept IsRootName) (edits : List Edit) :
    (edits.foldl edit w).root.Kept IsRootName := by
  induction edits generalizing w with
  | nil => exact h
  | cons e edits ih => exact ih (kept_edit h e)

/-- Whatever a workspace has seen, each path in it leads to a well-formed tree, to the root, or nowhere. -/
theorem proper_ofEdits (edits : List Edit) {t : String}
    (h : (ofEdits edits).root.reach (ofEdits edits).cwd t ≠ .ok (some (ofEdits edits).root)) :
    (ofEdits edits).root.Proper (ofEdits edits).cwd t :=
  (kept_foldl_edit kept_empty edits).proper h

end Workspace

end FrontendAudit.Disk
