import FrontendAudit.Proofs.Document
import FrontendAudit.Proofs.Path
import FrontendAudit.Proofs.Search
import Std.Data.String.ToInt

namespace FrontendAudit

namespace Text

theorem pieces_unlines {rows : List String} (h : ∀ row ∈ rows, '\n' ∉ row.toList) :
    pieces (· == '\n') (Command.unlines rows).toList = rows.map String.toList ++ [[]] := by
  induction rows with
  | nil => rfl
  | cons row rest ih =>
    obtain ⟨hrow, hrest⟩ := List.forall_mem_cons.1 h
    have hfree : pieces (· == '\n') row.toList = [row.toList] := by
      apply pieces_of_not_mem
      intro c hc
      have hne : c ≠ '\n' := fun heq ↦ hrow (heq ▸ hc)
      simpa using hne
    have hlist : (Command.unlines (row :: rest)).toList = row.toList ++ '\n' :: (Command.unlines rest).toList := by
      simp [Command.unlines]
    rw [hlist, pieces_append (by rfl), hfree, ih hrest]
    rfl

theorem unlines_injective {rows rows' : List String} (h : ∀ row ∈ rows, '\n' ∉ row.toList)
    (h' : ∀ row ∈ rows', '\n' ∉ row.toList) (heq : Command.unlines rows = Command.unlines rows') :
    rows = rows' := by
  have hpieces := congrArg (fun text ↦ pieces (· == '\n') text.toList) heq
  simp only [pieces_unlines h, pieces_unlines h'] at hpieces
  exact (List.map_inj_right fun _ _ ↦ String.toList_inj.1).1 (List.append_cancel_right hpieces)

end Text

namespace Finding

theorem not_mem_repr (n : Nat) {c : Char} (hc : c.isDigit = false) : c ∉ n.repr.toList := by
  intro hmem
  rw [Nat.toList_repr] at hmem
  have hdigit := Nat.isDigit_of_mem_toDigits (by omega) (by omega) hmem
  rw [hc] at hdigit
  cases hdigit

theorem not_mem_toString_int (n : Int) {c : Char} (hc : c.isDigit = false) (hsign : c ≠ '-') :
    c ∉ (toString n).toList := by
  cases n with
  | ofNat m => exact not_mem_repr m hc
  | negSucc m =>
    have hsplit : (toString (Int.negSucc m)).toList = '-' :: (m + 1).repr.toList := by
      rw [← List.singleton_append, ← String.toList_singleton, ← String.toList_append]
      rfl
    rw [hsplit, List.mem_cons, not_or]
    exact ⟨hsign, not_mem_repr (m + 1) hc⟩

theorem toList_text_of_eq_zero {f : Finding} (h : f.line = 0) :
    f.text.toList = "System: ".toList ++ f.message.toList := by
  rw [text, if_pos h, String.toList_append]

theorem toList_text_of_ne_zero {f : Finding} (h : f.line ≠ 0) :
    f.text.toList = 'L' :: ((toString f.line).toList ++ ':' :: ' ' :: f.message.toList) := by
  simp [text, if_neg h]

theorem text_injective {f g : Finding} (h : f.text = g.text) : f = g := by
  obtain ⟨n, a⟩ := f
  obtain ⟨m, b⟩ := g
  have hlist := congrArg String.toList h
  by_cases hn : n = 0
  · rw [toList_text_of_eq_zero hn] at hlist
    by_cases hm : m = 0
    · rw [toList_text_of_eq_zero hm] at hlist
      have hab : a = b := String.toList_inj.1 (List.append_cancel_left hlist)
      rw [hn, hm, hab]
    · rw [toList_text_of_ne_zero hm] at hlist
      exact absurd (List.cons.inj hlist).1 (by decide)
  · rw [toList_text_of_ne_zero hn] at hlist
    by_cases hm : m = 0
    · rw [toList_text_of_eq_zero hm] at hlist
      exact absurd (List.cons.inj hlist).1 (by decide)
    · rw [toList_text_of_ne_zero hm] at hlist
      have hcolon : ∀ k : Int, ':' ∉ (toString k).toList :=
        fun k ↦ not_mem_toString_int k (by decide) (by decide)
      obtain ⟨hnum, hrest⟩ := Text.append_cons_inj (hcolon n) (hcolon m) (List.cons.inj hlist).2
      have hnm : n = m := Int.repr_injective (String.toList_inj.1 hnum)
      have hab : a = b := String.toList_inj.1 (List.cons.inj hrest).2
      rw [hnm, hab]

theorem not_mem_text {f : Finding} {c : Char} (hdigit : c.isDigit = false) (hfixed : c ∉ "System: L-".toList)
    (h : c ∉ f.message.toList) : c ∉ f.text.toList := by
  have hlabel : "System: L-".toList = "System: ".toList ++ ['L', '-'] := rfl
  rw [hlabel, List.mem_append, not_or] at hfixed
  obtain ⟨hsystem, hletters⟩ := hfixed
  by_cases hline : f.line = 0
  · rw [toList_text_of_eq_zero hline, List.mem_append, not_or]
    exact ⟨hsystem, h⟩
  · simp only [List.mem_cons, List.not_mem_nil, or_false, not_or] at hletters
    have hnum : c ∉ (toString f.line).toList := not_mem_toString_int f.line hdigit hletters.2
    have hcolon : c ≠ ':' := fun heq ↦ hsystem (heq ▸ by decide)
    have hblank : c ≠ ' ' := fun heq ↦ hsystem (heq ▸ by decide)
    rw [toList_text_of_ne_zero hline]
    simp only [List.mem_cons, List.mem_append, not_or]
    exact ⟨hletters.1, hnum, hcolon, hblank, h⟩

end Finding

def Reports.NewlineFree (r : Reports) : Prop :=
  ∀ e ∈ r.entries, '\n' ∉ e.1.toList ∧ ∀ f ∈ e.2, '\n' ∉ f.message.toList

instance (r : Reports) : Decidable r.NewlineFree :=
  inferInstanceAs (Decidable (∀ e ∈ r.entries, '\n' ∉ e.1.toList ∧ ∀ f ∈ e.2, '\n' ∉ f.message.toList))

namespace Page

open Command (unlines)

def sectionRows (e : String × List Finding) : List String :=
  ("FILE: " ++ e.1) :: (e.2.map findingRow ++ [""])

def rows (r : Reports) : List String :=
  if r.size = 0 then ["", "✅ All quality gates passed! (Design + Performance)"]
  else
    ["", "=== PREMIUM QUALITY AUDIT REPORT ===", ""] ++
      (r.entries.flatMap sectionRows ++ ["Total files with quality issues: " ++ toString r.size])

theorem fileRows_plain : fileRows false = sectionRows := by
  funext e
  simp [fileRows, sectionRows, paint]

theorem rows_eq_document {r : Reports} (h : r.size ≤ 51) : rows r = document false r.entries := by
  rw [Reports.size] at h
  rw [rows, document, Reports.size]
  by_cases hempty : r.entries = []
  · rw [if_pos (List.length_eq_zero_iff.2 hempty), if_pos hempty]
    rfl
  · rw [if_neg (fun hlen ↦ hempty (List.length_eq_zero_iff.1 hlen)), if_neg hempty, fileRows_plain,
      List.take_of_length_le h, if_neg (by omega), List.append_nil, List.append_assoc]
    rfl

theorem newline_not_mem_sectionRows {r : Reports} (h : r.NewlineFree) {row : String}
    (hrow : row ∈ r.entries.flatMap sectionRows) : '\n' ∉ row.toList := by
  obtain ⟨e, he, hrow⟩ := List.mem_flatMap.1 hrow
  obtain ⟨hpath, hmessages⟩ := h e he
  rcases List.mem_cons.1 hrow with rfl | hrow
  · simpa using hpath
  · rcases List.mem_append.1 hrow with hrow | hrow
    · obtain ⟨f, hf, rfl⟩ := List.mem_map.1 hrow
      simpa [findingRow] using Finding.not_mem_text (by decide) (by decide) (hmessages f hf)
    · simp [List.mem_singleton.1 hrow]

theorem newline_not_mem_rows {r : Reports} (h : r.NewlineFree) : ∀ row ∈ rows r, '\n' ∉ row.toList := by
  intro row hrow
  rw [rows] at hrow
  split at hrow
  · simp only [List.mem_cons, List.not_mem_nil, or_false] at hrow
    rcases hrow with rfl | rfl <;> simp
  · rcases List.mem_append.1 hrow with hrow | hrow
    · simp only [List.mem_cons, List.not_mem_nil, or_false] at hrow
      rcases hrow with rfl | rfl | rfl <;> simp
    · rcases List.mem_append.1 hrow with hrow | hrow
      · exact newline_not_mem_sectionRows h hrow
      · have hnum : '\n' ∉ r.size.repr.toList := Finding.not_mem_repr r.size (by decide)
        rw [List.mem_singleton.1 hrow]
        simpa using hnum

theorem findingRow_injective {f g : Finding} (h : findingRow f = findingRow g) : f = g :=
  Finding.text_injective ((String.append_right_inj _).1 h)

theorem empty_not_mem_findingRows (findings : List Finding) : "" ∉ findings.map findingRow := by
  intro h
  obtain ⟨f, -, hf⟩ := List.mem_map.1 h
  exact absurd (String.append_eq_empty_iff.1 hf).1 (by decide)

theorem header_ne_total (path : String) (n : Nat) :
    "FILE: " ++ path ≠ "Total files with quality issues: " ++ toString n := by
  intro h
  have hhead := congrArg (fun row ↦ row.toList.head?) h
  simp at hhead

theorem sectionRows_injective {entries entries' : List (String × List Finding)} {last last' : String}
    (hlast : ∀ path, "FILE: " ++ path ≠ last) (hlast' : ∀ path, "FILE: " ++ path ≠ last')
    (h : entries.flatMap sectionRows ++ [last] = entries'.flatMap sectionRows ++ [last']) :
    entries = entries' := by
  induction entries generalizing entries' with
  | nil =>
    cases entries' with
    | nil => rfl
    | cons e' rest' => exact absurd (List.cons.inj h).1.symm (hlast e'.1)
  | cons e rest ih =>
    cases entries' with
    | nil => exact absurd (List.cons.inj h).1 (hlast' e.1)
    | cons e' rest' =>
      obtain ⟨path, findings⟩ := e
      obtain ⟨path', findings'⟩ := e'
      simp only [List.flatMap_cons, sectionRows, List.cons_append, List.append_assoc, List.nil_append] at h
      obtain ⟨hhead, htail⟩ := List.cons.inj h
      have hpath : path = path' := (String.append_right_inj _).1 hhead
      -- a section ends at its empty row, as no finding has one
      obtain ⟨hrows, hrest⟩ := Text.append_cons_inj (empty_not_mem_findingRows findings)
        (empty_not_mem_findingRows findings') htail
      have hfindings : findings = findings' :=
        (List.map_inj_right fun _ _ ↦ findingRow_injective).1 hrows
      rw [hpath, hfindings, ih hrest]

theorem rows_injective {r r' : Reports} (h : rows r = rows r') : r.entries = r'.entries := by
  have hsuccess : "✅ All quality gates passed! (Design + Performance)" ≠
      "=== PREMIUM QUALITY AUDIT REPORT ===" := by simp
  by_cases hr : r.size = 0
  · by_cases hr' : r'.size = 0
    · rw [List.eq_nil_of_length_eq_zero hr, List.eq_nil_of_length_eq_zero hr']
    · rw [rows, rows, if_pos hr, if_neg hr'] at h
      exact absurd (List.cons.inj (List.cons.inj h).2).1 hsuccess
  · by_cases hr' : r'.size = 0
    · rw [rows, rows, if_neg hr, if_pos hr'] at h
      exact absurd (List.cons.inj (List.cons.inj h).2).1 hsuccess.symm
    · rw [rows, rows, if_neg hr, if_neg hr'] at h
      exact sectionRows_injective (fun path ↦ header_ne_total path r.size)
        (fun path ↦ header_ne_total path r'.size) (List.append_cancel_left h)

/-- The plain page of at most 51 files determines the report set. -/
theorem plain_render_injective {r r' : Reports} (hsize : r.size ≤ 51) (hsize' : r'.size ≤ 51)
    (hfree : r.NewlineFree) (hfree' : r'.NewlineFree) (h : render false r = render false r') : r = r' := by
  rw [render_eq_document, render_eq_document, ← rows_eq_document hsize, ← rows_eq_document hsize'] at h
  have hentries : r.entries = r'.entries :=
    rows_injective (Text.unlines_injective (newline_not_mem_rows hfree) (newline_not_mem_rows hfree') h)
  apply Reports.ext_get?
  intro path
  rw [Reports.get?, Reports.get?, hentries]

theorem plain_render_injective_lookalikes :
    let r := Reports.ofList [("FILE: b", [⟨0, "  - L1: FILE: c"⟩, ⟨-7, ""⟩]), ("", []),
      ("Total files with quality issues: 1", [⟨12, "=== PREMIUM QUALITY AUDIT REPORT ==="⟩])]
    let r' := Reports.ofList [("", []),
      ("Total files with quality issues: 1", [⟨12, "=== PREMIUM QUALITY AUDIT REPORT ==="⟩]),
      ("FILE: b", [⟨0, "  - L1: FILE: c"⟩, ⟨-7, ""⟩])]
    r.size ≤ 51 ∧ r'.size ≤ 51 ∧ r.NewlineFree ∧ r'.NewlineFree ∧ render false r = render false r' ∧ r = r' := by
  intro r r'
  have hsize : r.size ≤ 51 := by decide +kernel
  have hsize' : r'.size ≤ 51 := by decide +kernel
  have hfree : r.NewlineFree := by decide +kernel
  have hfree' : r'.NewlineFree := by decide +kernel
  have hrender : render false r = render false r' := by decide +kernel
  exact ⟨hsize, hsize', hfree, hfree', hrender, plain_render_injective hsize hsize' hfree hfree' hrender⟩

end Page

end FrontendAudit
