import FrontendAudit.Proofs.Keyed
import FrontendAudit.Reports

namespace FrontendAudit.Reports

@[simp]
theorem get?_empty (path : String) : empty.get? path = none := rfl

theorem get?_put (r : Reports) (key path : String) (findings : List Finding) :
    (r.put key findings).get? path = if path = key then some findings else r.get? path :=
  Keyed.lookup_put key path findings r.entries

theorem get?_add (r : Reports) (key path : String) (findings : List Finding) :
    (r.add key findings).get? path =
      if path = key ∧ findings ≠ [] then some findings else r.get? path := by
  cases findings with
  | nil => simp [add]
  | cons f fs => simp [add, get?_put]

theorem get?_eq_some_iff (r : Reports) {path : String} {findings : List Finding} :
    r.get? path = some findings ↔ (path, findings) ∈ r.entries :=
  r.ascending.lookup_eq_some_iff

theorem ext_get? {r s : Reports} (h : ∀ path, r.get? path = s.get? path) : r = s := by
  obtain ⟨a, ha⟩ := r
  obtain ⟨b, hb⟩ := s
  have hab : a = b := ha.eq_of_lookup_eq hb h
  subst hab
  rfl

def last? (pairs : List (String × List Finding)) (path : String) : Option (List Finding) :=
  (pairs.filter fun e ↦ e.1 = path).getLast?.map Prod.snd

theorem get?_foldl_put (pairs : List (String × List Finding)) (r : Reports) (path : String) :
    (pairs.foldl (fun r e ↦ r.put e.1 e.2) r).get? path = (last? pairs path).or (r.get? path) := by
  induction pairs generalizing r with
  | nil => rfl
  | cons e rest ih =>
    rw [List.foldl_cons, ih, get?_put]
    by_cases h : e.1 = path
    · have hlast : last? (e :: rest) path = (last? rest path).or (some e.2) := by
        rw [last?, last?, List.filter_cons_of_pos (by simpa using h), List.getLast?_cons]
        cases (rest.filter fun e ↦ e.1 = path).getLast? <;> rfl
      rw [hlast, if_pos h.symm, Option.or_assoc]
      rfl
    · rw [if_neg (Ne.symm h), last?, last?, List.filter_cons_of_neg (by simpa using h)]

theorem get?_ofList (pairs : List (String × List Finding)) (path : String) :
    (ofList pairs).get? path = last? pairs path := by
  rw [ofList, get?_foldl_put, get?_empty, Option.or_none]

theorem last?_isSome_iff {pairs : List (String × List Finding)} {path : String} :
    (last? pairs path).isSome ↔ path ∈ pairs.map Prod.fst := by
  rw [last?, Option.isSome_map, List.getLast?_isSome, ← List.isEmpty_eq_false_iff]
  simp

def paths (r : Reports) : List String :=
  r.entries.map Prod.fst

theorem nodup_paths (r : Reports) : r.paths.Nodup :=
  r.ascending.nodup_keys

theorem length_paths (r : Reports) : r.paths.length = r.size :=
  List.length_map ..

theorem mem_paths_iff (r : Reports) {path : String} :
    path ∈ r.paths ↔ ∃ findings, r.get? path = some findings := by
  simp only [paths, List.mem_map, Prod.exists, get?_eq_some_iff]
  constructor
  · intro h
    obtain ⟨key, findings, hmem, rfl⟩ := h
    exact ⟨findings, hmem⟩
  · intro ⟨findings, hmem⟩
    exact ⟨path, findings, hmem, rfl⟩

end FrontendAudit.Reports
