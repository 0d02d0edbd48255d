import FrontendAudit.Text.Basic

namespace FrontendAudit.Text

variable {α : Type}

theorem occursIn_iff (word cs : List Char) : occursIn word cs = true ↔ word <:+: cs := by
  induction cs with
  | nil => simp [occursIn]
  | cons c cs ih =>
    rw [occursIn, Bool.or_eq_true, List.isPrefixOf_iff_prefix, ih, List.infix_cons_iff]

theorem append_cons_inj {a : α} {x x' y y' : List α} (hx : a ∉ x) (hx' : a ∉ x')
    (h : x ++ a :: y = x' ++ a :: y') : x = x' ∧ y = y' := by
  induction x generalizing x' with
  | nil =>
    cases x' with
    | nil => exact ⟨rfl, (List.cons.inj h).2⟩
    | cons b x' =>
      obtain ⟨rfl, -⟩ := List.cons.inj h
      exact absurd List.mem_cons_self hx'
  | cons b x ih =>
    cases x' with
    | nil =>
      obtain ⟨rfl, -⟩ := List.cons.inj h
      exact absurd List.mem_cons_self hx
    | cons b' x' =>
      rw [List.mem_cons, not_or] at hx hx'
      obtain ⟨rfl, hrest⟩ := List.cons.inj h
      obtain ⟨rfl, hy⟩ := ih hx.2 hx'.2 hrest
      exact ⟨rfl, hy⟩

section First

variable {recognise : List Char → Option α}

theorem first?_cons_of_none {c : Char} {cs : List Char} (h : recognise (c :: cs) = none) :
    first? recognise (c :: cs) = first? recognise cs := by
  rw [first?, h]

theorem first?_cons_of_some {c : Char} {cs : List Char} {a : α} (h : recognise (c :: cs) = some a) :
    first? recognise (c :: cs) = some a := by
  rw [first?, h]

theorem exists_first?_eq_some (before : List Char) {c : Char} {after : List Char} {a : α}
    (h : recognise (c :: after) = some a) : ∃ b, first? recognise (before ++ c :: after) = some b := by
  induction before with
  | nil => exact ⟨a, first?_cons_of_some h⟩
  | cons d before ih =>
    rw [List.cons_append]
    cases hd : recognise (d :: (before ++ c :: after)) with
    | some b => exact ⟨b, first?_cons_of_some hd⟩
    | none =>
      rw [first?_cons_of_none hd]
      exact ih

theorem first?_eq_some_iff (hnil : recognise [] = none) {cs : List Char} {a : α} :
    first? recognise cs = some a ↔
      ∃ before after, before ++ after = cs ∧ recognise after = some a ∧
        ∀ before' after', before' ++ after' = cs → before'.length < before.length →
          recognise after' = none := by
  induction cs with
  | nil =>
    constructor
    · intro h
      cases h
    · intro ⟨before, after, happ, ha, _⟩
      rw [(List.append_eq_nil_iff.1 happ).2, hnil] at ha
      cases ha
  | cons c cs ih =>
    cases hc : recognise (c :: cs) with
    | some b =>
      rw [first?_cons_of_some hc]
      constructor
      · intro hb
        exact ⟨[], c :: cs, rfl, hc.trans hb, fun _ _ _ hlt ↦ absurd hlt (by simp)⟩
      · intro ⟨before, after, happ, ha, hleft⟩
        cases before with
        | nil =>
          rw [← ha, ← hc, ← happ]
          rfl
        | cons d before =>
          have hnone := hleft [] (c :: cs) rfl (by simp)
          rw [hc] at hnone
          cases hnone
    | none =>
      rw [first?_cons_of_none hc, ih]
      constructor
      · intro ⟨before, after, happ, ha, hleft⟩
        refine ⟨c :: before, after, by rw [List.cons_append, happ], ha, ?_⟩
        intro before' after' happ' hlt
        cases before' with
        | nil => rwa [show after' = c :: cs from happ']
        | cons d before' =>
          exact hleft before' after' (List.cons.inj happ').2 (by simpa using hlt)
      · intro ⟨before, after, happ, ha, hleft⟩
        cases before with
        | nil =>
          rw [show after = c :: cs from happ, hc] at ha
          cases ha
        | cons d before =>
          obtain ⟨rfl, hrest⟩ := List.cons.inj happ
          refine ⟨before, after, hrest, ha, ?_⟩
          intro before' after' happ' hlt
          exact hleft (d :: before') after' (by rw [List.cons_append, happ']) (by simpa using hlt)

end First

section Scan

variable {recognise : List Char → Option (Match α)}

theorem scanFrom_eq_append (found : List α) (skip : Nat) (cs : List Char) :
    scanFrom recognise found skip cs = found.reverse ++ scan recognise (cs.drop skip) := by
  induction cs generalizing found skip with
  | nil => simp [scan, scanFrom]
  | cons c cs ih =>
    cases skip with
    | succ n => rw [scanFrom, ih, List.drop_succ_cons]
    | zero =>
      rw [List.drop_zero, scan, scanFrom, scanFrom]
      cases recognise (c :: cs) with
      | none => simp only [ih, List.reverse_nil, List.nil_append]
      | some m => simp only [ih, List.reverse_cons, List.reverse_nil, List.nil_append, List.append_assoc]

theorem scan_cons_of_none {c : Char} {cs : List Char} (h : recognise (c :: cs) = none) :
    scan recognise (c :: cs) = scan recognise cs := by
  rw [scan, scanFrom, h, scan]

theorem scan_cons_of_some {c : Char} {cs : List Char} {m : Match α} (h : recognise (c :: cs) = some m) :
    scan recognise (c :: cs) = m.value :: scan recognise (cs.drop (m.length - 1)) := by
  rw [scan, scanFrom, h]
  exact scanFrom_eq_append [m.value] (m.length - 1) cs

/-- The steps of a scan: a position is passed over, or a piece is taken and the scan goes on behind it. -/
theorem scan_induction (recognise : List Char → Option (Match α)) {motive : List Char → Prop}
    (nil : motive [])
    (pass : ∀ c cs, recognise (c :: cs) = none → motive cs → motive (c :: cs))
    (take : ∀ c cs m, recognise (c :: cs) = some m → motive (cs.drop (m.length - 1)) → motive (c :: cs)) :
    ∀ cs, motive cs
  | [] => nil
  | c :: cs =>
    match h : recognise (c :: cs) with
    | none => pass c cs h (scan_induction recognise nil pass take cs)
    | some m => take c cs m h (scan_induction recognise nil pass take (cs.drop (m.length - 1)))
termination_by cs => cs.length
decreasing_by all_goals simp only [List.length_drop, List.length_cons]; omega

theorem exists_of_mem_scan {cs : List Char} {a : α} (h : a ∈ scan recognise cs) :
    ∃ before after m, before ++ after = cs ∧ recognise after = some m ∧ m.value = a := by
  induction cs using scan_induction recognise with
  | nil => cases h
  | pass c cs hc ih =>
    rw [scan_cons_of_none hc] at h
    obtain ⟨before, after, m, rfl, hm, ha⟩ := ih h
    exact ⟨c :: before, after, m, rfl, hm, ha⟩
  | take c cs m hc ih =>
    rw [scan_cons_of_some hc] at h
    cases List.mem_cons.1 h with
    | inl ha => exact ⟨[], c :: cs, m, rfl, hc, ha.symm⟩
    | inr h =>
      obtain ⟨before, after, m', happ, hm, ha⟩ := ih h
      refine ⟨c :: (cs.take (m.length - 1) ++ before), after, m', ?_, hm, ha⟩
      rw [List.cons_append, List.append_assoc, happ, List.take_append_drop]

/-- Where the recogniser accepts, the scan has a piece that starts there or reaches over that position. -/
theorem scan_covers (before : List Char) {after : List Char} {m : Match α} (hne : after ≠ [])
    (hm : recognise after = some m) :
    ∃ start between m', start ++ between = before ∧ recognise (between ++ after) = some m' ∧
      (between = [] ∨ between.length < m'.length) ∧ m'.value ∈ scan recognise (before ++ after) := by
  generalize hcs : before ++ after = cs
  induction cs using scan_induction recognise generalizing before with
  | nil => exact absurd (List.append_eq_nil_iff.1 hcs).2 hne
  | pass c cs hc ih =>
    cases before with
    | nil =>
      rw [show after = c :: cs from hcs, hc] at hm
      cases hm
    | cons d before =>
      obtain ⟨rfl, hrest⟩ := List.cons.inj hcs
      obtain ⟨start, between, m', rfl, hm', hlt, hmem⟩ := ih before hrest
      exact ⟨d :: start, between, m', rfl, hm', hlt, by rwa [scan_cons_of_none hc]⟩
  | take c cs m' hc ih =>
    rw [scan_cons_of_some hc]
    cases before with
    | nil =>
      rw [List.nil_append] at hcs
      exact ⟨[], [], m', rfl, by rwa [List.nil_append, hcs], .inl rfl, List.mem_cons_self⟩
    | cons d before =>
      by_cases hlt : (d :: before).length < m'.length
      · -- The position lies inside the piece that is taken here.
        exact ⟨[], d :: before, m', rfl, by rwa [hcs], .inr hlt, List.mem_cons_self⟩
      · obtain ⟨rfl, hrest⟩ := List.cons.inj hcs
        have hle : m'.length - 1 ≤ before.length := by
          rw [List.length_cons] at hlt
          omega
        have hdrop : before.drop (m'.length - 1) ++ after = cs.drop (m'.length - 1) := by
          rw [← hrest]
          exact (List.drop_append_of_le_length hle).symm
        obtain ⟨start, between, m'', hstart, hm'', hlt', hmem⟩ := ih _ hdrop
        refine ⟨d :: (before.take (m'.length - 1) ++ start), between, m'', ?_, hm'', hlt',
          List.mem_cons_of_mem _ hmem⟩
        rw [List.cons_append, List.append_assoc, hstart, List.take_append_drop]

/-- Accepts the same pieces and says where they stand: with each goes the text from its start on. -/
def placed (recognise : List Char → Option (Match α)) (cs : List Char) :
    Option (Match (List Char × Match α)) :=
  (recognise cs).map fun m ↦ ⟨(cs, m), m.length⟩

theorem placed_eq_some_iff {cs : List Char} {m : Match (List Char × Match α)} :
    placed recognise cs = some m ↔ ∃ m', recognise cs = some m' ∧ m = ⟨(cs, m'), m'.length⟩ := by
  rw [placed, Option.map_eq_some_iff]
  simp only [eq_comm (b := m)]

theorem scan_placed (recognise : List Char → Option (Match α)) (cs : List Char) :
    (scan (placed recognise) cs).map (fun piece ↦ piece.2.value) = scan recognise cs := by
  induction cs using scan_induction recognise with
  | nil => rfl
  | pass c cs hc ih =>
    have hplaced : placed recognise (c :: cs) = none := by rw [placed, hc]; rfl
    rw [scan_cons_of_none hplaced, scan_cons_of_none hc, ih]
  | take c cs m hc ih =>
    have hplaced : placed recognise (c :: cs) = some ⟨(c :: cs, m), m.length⟩ := by rw [placed, hc]; rfl
    rw [scan_cons_of_some hplaced, scan_cons_of_some hc, List.map_cons, ih]

theorem exists_of_mem_scan_placed {cs : List Char} {piece : List Char × Match α}
    (h : piece ∈ scan (placed recognise) cs) :
    ∃ before, before ++ piece.1 = cs ∧ recognise piece.1 = some piece.2 := by
  obtain ⟨before, after, _, rfl, hplaced, rfl⟩ := exists_of_mem_scan h
  obtain ⟨m, hm, rfl⟩ := placed_eq_some_iff.1 hplaced
  exact ⟨before, rfl, hm⟩

theorem pairwise_scan_placed (recognise : List Char → Option (Match α)) (cs : List Char) :
    (scan (placed recognise) cs).Pairwise fun a b ↦ b.1.length + a.2.length ≤ a.1.length := by
  induction cs using scan_induction (placed recognise) with
  | nil => exact List.Pairwise.nil
  | pass c cs hc ih => rwa [scan_cons_of_none hc]
  | take c cs _ hc ih =>
    rw [scan_cons_of_some hc]
    refine List.pairwise_cons.2 ⟨?_, ih⟩
    intro b hb
    obtain ⟨m, -, rfl⟩ := placed_eq_some_iff.1 hc
    obtain ⟨before, hbefore, -⟩ := exists_of_mem_scan_placed hb
    have hlen := congrArg List.length hbefore
    have hne : cs.drop (m.length - 1) ≠ [] := by
      intro hnil
      simp only [hnil] at hb
      cases hb
    have hlt := List.length_pos_iff.2 hne
    simp only [List.length_append, List.length_drop, List.length_cons] at hlen hlt ⊢
    omega

end Scan

end FrontendAudit.Text
