namespace FrontendAudit.Keyed

variable {α : Type}

/-- Insertion in one pass; a value that stood under the same key is replaced. -/
def put (key : String) (value : α) : List (String × α) → List (String × α)
  | [] => [(key, value)]
  | (k, v) :: rest =>
    if key < k then (key, value) :: (k, v) :: rest
    else if key = k then (key, value) :: rest
    else (k, v) :: put key value rest

def drop (key : String) (entries : List (String × α)) : List (String × α) :=
  entries.filter fun e ↦ e.1 ≠ key

def ofList (pairs : List (String × α)) : List (String × α) :=
  pairs.foldl (fun acc e ↦ put e.1 e.2 acc) []

def Ascending (entries : List (String × α)) : Prop :=
  entries.Pairwise fun a b ↦ a.1 < b.1

theorem eq_or_mem_of_mem_put {key : String} {value : α} {e : String × α} {entries : List (String × α)}
    (h : e ∈ put key value entries) : e = (key, value) ∨ e ∈ entries := by
  induction entries with
  | nil => simpa [put] using h
  | cons head rest ih =>
    obtain ⟨k, v⟩ := head
    rw [put] at h
    split at h
    · simpa using h
    · split at h
      · rcases List.mem_cons.1 h with h | h
        · exact .inl h
        · exact .inr (List.mem_cons_of_mem _ h)
      · rcases List.mem_cons.1 h with h | h
        · exact .inr (h ▸ List.mem_cons_self)
        · exact (ih h).imp id (List.mem_cons_of_mem _)

theorem ascending_put (key : String) (value : α) {entries : List (String × α)}
    (h : Ascending entries) : Ascending (put key value entries) := by
  induction entries with
  | nil => simp [put, Ascending]
  | cons head rest ih =>
    obtain ⟨k, v⟩ := head
    obtain ⟨hk, hrest⟩ := List.pairwise_cons.1 h
    rw [put]
    split
    · next hlt =>
      refine List.pairwise_cons.2 ⟨fun e he ↦ ?_, h⟩
      rcases List.mem_cons.1 he with rfl | he
      · exact hlt
      · exact String.lt_trans hlt (hk e he)
    · next hge =>
      split
      · next heq => exact List.pairwise_cons.2 ⟨fun e he ↦ heq ▸ hk e he, hrest⟩
      · next hne =>
        have hlt : k < key := by
          rcases String.le_total key k with hle | hle
          · exact absurd (String.le_antisymm hle (String.not_lt.1 hge)) hne
          · exact String.not_le.1 fun hle' ↦ hne (String.le_antisymm hle' hle)
        refine List.pairwise_cons.2 ⟨fun e he ↦ ?_, ih hrest⟩
        rcases eq_or_mem_of_mem_put he with rfl | he
        · exact hlt
        · exact hk e he

end FrontendAudit.Keyed
