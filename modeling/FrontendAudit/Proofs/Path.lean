import FrontendAudit.Disk.Path

namespace FrontendAudit.Text

theorem pieces_ne_nil (separates : Char → Bool) (cs : List Char) : pieces separates cs ≠ [] := by
  cases cs with
  | nil => simp [pieces]
  | cons c cs =>
    rw [pieces]
    split <;> simp

theorem pieces_append {separates : Char → Bool} {c : Char} (hc : separates c = true) (a b : List Char) :
    pieces separates (a ++ c :: b) = pieces separates a ++ pieces separates b := by
  induction a with
  | nil => simp [pieces, hc]
  | cons x a ih =>
    obtain ⟨p, ps, hp⟩ := List.exists_cons_of_ne_nil (pieces_ne_nil separates a)
    cases hx : separates x <;> simp [pieces, ih, hx, hp]

theorem pieces_of_not_mem {separates : Char → Bool} {cs : List Char}
    (h : ∀ c ∈ cs, separates c = false) : pieces separates cs = [cs] := by
  induction cs with
  | nil => rfl
  | cons c cs ih =>
    have hcs : pieces separates cs = [cs] := ih fun x hx ↦ h x (List.mem_cons_of_mem c hx)
    simp [pieces, h c List.mem_cons_self, hcs]

end FrontendAudit.Text

namespace FrontendAudit.Disk.Path

open Text

/-- The path below `t` that the names lead to; a separator follows `t` only if `t` does not end in one. -/
def under (t : String) : List String → String
  | [] => t
  | name :: names => (if t.toList.getLast? = some '/' then t else t ++ "/") ++ "/".intercalate (name :: names)

theorem names_append_separator (a b : String) : names (a ++ "/" ++ b) = names a ++ names b := by
  have hcs : (a ++ "/" ++ b).toList = a.toList ++ '/' :: b.toList := by simp
  rw [names, hcs, pieces_append (by rfl), List.filter_append, List.map_append]
  rfl

theorem names_separator (a : String) : names (a ++ "/") = names a := by
  have h := names_append_separator a ""
  have hnone : names "" = [] := rfl
  rwa [String.append_empty, hnone, List.append_nil] at h

theorem names_of_isName {name : String} (h : IsName name) : names name = [name] := by
  have hpieces : pieces (· == '/') name.toList = [name.toList] := by
    refine pieces_of_not_mem fun c hc ↦ ?_
    have hne : c ≠ '/' := fun heq ↦ h.no_separator (heq ▸ hc)
    simpa using hne
  have hfull : name.toList.isEmpty = false := by simpa using h.ne_empty
  simp [names, hpieces, hfull]

theorem exists_eq_append_separator {t : String} (h : t.toList.getLast? = some '/') :
    ∃ front, t = front ++ "/" := by
  obtain ⟨cs, hcs⟩ := List.getLast?_eq_some_iff.1 h
  exact ⟨String.ofList cs, String.toList_inj.1 (by simp [hcs])⟩

theorem join_eq_append (t name : String) :
    join t name = (if t.toList.getLast? = some '/' then t else t ++ "/") ++ name := by
  rw [join]
  split <;> rfl

theorem mem_toList_join {t name : String} {c : Char} (h : c ∈ (join t name).toList) :
    c ∈ t.toList ∨ c = '/' ∨ c ∈ name.toList := by
  rw [join] at h
  split at h
  · rw [String.toList_append, List.mem_append] at h
    exact h.imp_right .inr
  · simpa [or_assoc] using h

theorem join_ne_empty (t : String) {name : String} (h : IsName name) : join t name ≠ "" := by
  rw [join]
  split <;> simp [h.ne_empty]

theorem names_join (t : String) {name : String} (h : IsName name) :
    names (join t name) = names t ++ [name] := by
  rw [join]
  split
  · next hend =>
    obtain ⟨front, rfl⟩ := exists_eq_append_separator hend
    rw [names_append_separator, names_separator, names_of_isName h]
  · rw [names_append_separator, names_of_isName h]

theorem getLast?_append_isName (front : String) {name : String} (h : IsName name) :
    (front ++ name).toList.getLast? ≠ some '/' := by
  intro hlast
  have hne : name.toList ≠ [] := by simpa using h.ne_empty
  rw [String.toList_append, List.getLast?_append, List.getLast?_eq_some_getLast hne, Option.some_or] at hlast
  exact h.no_separator (Option.some.inj hlast ▸ List.getLast_mem hne)

theorem steps_join (t : String) {name : String} (h : IsName name) :
    steps (join t name) = names t ++ [name] := by
  have hlast : (join t name).toList.getLast? ≠ some '/' := by
    rw [join_eq_append]
    exact getLast?_append_isName _ h
  rw [steps, if_neg hlast, names_join t h]

theorem isAbsolute_join {t : String} (ht : t ≠ "") (name : String) :
    isAbsolute (join t name) = isAbsolute t := by
  have hne : t.toList ≠ [] := by simpa using ht
  obtain ⟨c, cs, hcs⟩ := List.exists_cons_of_ne_nil hne
  rw [join]
  split <;> simp [isAbsolute, hcs]

theorem under_singleton (t name : String) : under t [name] = join t name := by
  rw [under, String.intercalate_singleton, join_eq_append]

theorem under_cons (t : String) {name : String} (h : IsName name) (names : List String) :
    under t (name :: names) = under (join t name) names := by
  have hlast : (join t name).toList.getLast? ≠ some '/' := by
    rw [join_eq_append]
    exact getLast?_append_isName _ h
  cases names with
  | nil => exact under_singleton t name
  | cons next rest =>
    rw [under, under, if_neg hlast, String.intercalate_cons_cons, join_eq_append]
    simp only [String.append_assoc]

theorem names_under (t : String) {p : List String} (h : ∀ name ∈ p, IsName name) :
    names (under t p) = names t ++ p := by
  induction p generalizing t with
  | nil => exact (List.append_nil _).symm
  | cons name rest ih =>
    obtain ⟨hname, hrest⟩ := List.forall_mem_cons.1 h
    rw [under_cons t hname, ih _ hrest, names_join t hname, List.append_assoc]
    rfl

theorem under_injective {t : String} {p q : List String} (hp : ∀ name ∈ p, IsName name)
    (hq : ∀ name ∈ q, IsName name) (h : under t p = under t q) : p = q := by
  have hnames := congrArg names h
  rw [names_under t hp, names_under t hq] at hnames
  exact List.append_cancel_left hnames

theorem size_le_size_under (t : String) (names : List String) :
    t.utf8ByteSize ≤ (under t names).utf8ByteSize := by
  cases names with
  | nil => exact Nat.le_refl _
  | cons name names =>
    rw [under, String.utf8ByteSize_append]
    split
    · omega
    · rw [String.utf8ByteSize_append]
      omega

/-- What names of entries, joined to a path one after the other, lead to. -/
def StrictlyBelow (d f : String) : Prop :=
  ∃ names : List String, names ≠ [] ∧ (∀ name ∈ names, IsName name) ∧ f = names.foldl join d

theorem foldl_join (d : String) {p : List String} (h : ∀ name ∈ p, IsName name) :
    p.foldl join d = under d p := by
  induction p generalizing d with
  | nil => rfl
  | cons name rest ih =>
    obtain ⟨hname, hrest⟩ := List.forall_mem_cons.1 h
    rw [List.foldl_cons, ih _ hrest, under_cons d hname]

theorem under_append (t : String) {p q : List String} (hp : ∀ name ∈ p, IsName name)
    (hq : ∀ name ∈ q, IsName name) : under t (p ++ q) = under (under t p) q := by
  have happend : ∀ name ∈ p ++ q, IsName name := List.forall_mem_append.2 ⟨hp, hq⟩
  rw [← foldl_join t happend, List.foldl_append, foldl_join t hp, foldl_join _ hq]

theorem strictlyBelow_iff_names {d f : String} :
    StrictlyBelow d f ↔
      let rest := (names f).drop (names d).length
      rest ≠ [] ∧ (∀ name ∈ rest, IsName name) ∧ f = rest.foldl join d := by
  constructor
  · intro ⟨p, hne, hname, hf⟩
    have hrest : (names f).drop (names d).length = p := by
      rw [hf, foldl_join d hname, names_under d hname, List.drop_left]
    rw [hrest]
    exact ⟨hne, hname, hf⟩
  · intro h
    exact ⟨_, h⟩

instance (d f : String) : Decidable (StrictlyBelow d f) :=
  decidable_of_iff _ strictlyBelow_iff_names.symm

theorem strictlyBelow_under_iff {t : String} {p q : List String} (hp : ∀ name ∈ p, IsName name)
    (hq : ∀ name ∈ q, IsName name) : StrictlyBelow (under t p) (under t q) ↔ p <+: q ∧ p ≠ q := by
  constructor
  · intro ⟨r, hne, hr, heq⟩
    rw [foldl_join _ hr, ← under_append t hp hr] at heq
    obtain rfl := under_injective hq (List.forall_mem_append.2 ⟨hp, hr⟩) heq
    exact ⟨List.prefix_append p r, by simpa using hne⟩
  · intro ⟨⟨r, hr⟩, hne⟩
    subst hr
    have hnames : ∀ name ∈ r, IsName name := (List.forall_mem_append.1 hq).2
    refine ⟨r, by simpa using hne, hnames, ?_⟩
    rw [foldl_join _ hnames, under_append t hp hnames]

end FrontendAudit.Disk.Path
