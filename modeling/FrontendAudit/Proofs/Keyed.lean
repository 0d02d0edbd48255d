import FrontendAudit.Keyed

namespace FrontendAudit.Keyed

variable {α : Type}

theorem lookup_cons_of_ne {k k' : String} (h : k ≠ k') (v : α) (rest : List (String × α)) :
    ((k', v) :: rest).lookup k = rest.lookup k := by
  have hb : (k == k') = false := beq_eq_false_iff_ne.2 h
  simp only [List.lookup_cons, hb]

theorem lookup_put (key k : String) (value : α) (entries : List (String × α)) :
    (put key value entries).lookup k = if k = key then some value else entries.lookup k := by
  induction entries with
  | nil =>
    by_cases h : k = key
    · simp [put, h]
    · simp [put, h, lookup_cons_of_ne h]
  | cons head rest ih =>
    obtain ⟨k', v⟩ := head
    rw [put]
    split
    · by_cases h : k = key
      · simp [h]
      · rw [lookup_cons_of_ne h, if_neg h]
    · split
      · next heq =>
        subst heq
        by_cases h : k = key
        · simp [h]
        · rw [lookup_cons_of_ne h, lookup_cons_of_ne h, if_neg h]
      · next hne =>
        by_cases h : k = k'
        · subst h
          simp [Ne.symm hne]
        · rw [lookup_cons_of_ne h, lookup_cons_of_ne h, ih]

theorem Ascending.nodup_keys {entries : List (String × α)} (h : Ascending entries) :
    (entries.map Prod.fst).Nodup := by
  refine List.pairwise_map.2 (List.Pairwise.imp ?_ h)
  intro a b hlt heq
  rw [heq] at hlt
  exact String.lt_irrefl _ hlt

theorem Ascending.nodup {entries : List (String × α)} (h : Ascending entries) : entries.Nodup :=
  (List.pairwise_map.1 h.nodup_keys).imp fun hne heq ↦ hne (congrArg Prod.fst heq)

theorem Ascending.lookup_eq_some_iff {entries : List (String × α)} (h : Ascending entries)
    {k : String} {v : α} : entries.lookup k = some v ↔ (k, v) ∈ entries := by
  induction entries with
  | nil => simp
  | cons head rest ih =>
    obtain ⟨k', v'⟩ := head
    obtain ⟨hk, hrest⟩ := List.pairwise_cons.1 h
    by_cases heq : k = k'
    · subst heq
      have hout : (k, v) ∉ rest := fun hmem ↦ String.lt_irrefl k (hk (k, v) hmem)
      simp [hout, eq_comm]
    · rw [lookup_cons_of_ne heq, ih hrest]
      simp [heq]

theorem Ascending.eq_of_lookup_eq {a b : List (String × α)} (ha : Ascending a) (hb : Ascending b)
    (h : ∀ k, a.lookup k = b.lookup k) : a = b := by
  have hmem : ∀ e, e ∈ a ↔ e ∈ b := by
    intro ⟨k, v⟩
    rw [← ha.lookup_eq_some_iff, ← hb.lookup_eq_some_iff, h]
  have hperm : a.Perm b := (List.perm_ext_iff_of_nodup ha.nodup hb.nodup).2 hmem
  refine hperm.eq_of_pairwise ?_ ha hb
  intro x y _ _ hxy hyx
  exact absurd (String.lt_trans hxy hyx) (String.lt_irrefl _)

end FrontendAudit.Keyed
