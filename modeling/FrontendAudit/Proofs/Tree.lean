import FrontendAudit.Disk.Tree
import FrontendAudit.Proofs.Keyed
import FrontendAudit.Proofs.Path

namespace FrontendAudit.Disk.Node

/-- A tree as a file system keeps it: names are distinct, in order, and such as entries have. -/
inductive WellFormed : Node → Prop
  | file (content : ByteArray) : WellFormed (file content)
  | link (target : String) : WellFormed (link target)
  | dir {entries : List (String × Node)} (ascending : Keyed.Ascending entries)
      (isName : ∀ e ∈ entries, Path.IsName e.1) (below : ∀ e ∈ entries, WellFormed e.2) :
      WellFormed (dir entries)

mutual

def isWellFormed : Node → Bool
  | file _ => true
  | link _ => true
  | dir entries => decide (entries.Pairwise fun a b ↦ a.1 < b.1) && areWellFormed entries

def areWellFormed : List (String × Node) → Bool
  | [] => true
  | (name, n) :: rest => decide (Path.IsName name) && n.isWellFormed && areWellFormed rest

end

mutual

theorem isWellFormed_iff : ∀ n : Node, n.isWellFormed = true ↔ n.WellFormed
  | file content => by simp [isWellFormed, WellFormed.file]
  | link target => by simp [isWellFormed, WellFormed.link]
  | dir entries => by
    rw [isWellFormed, Bool.and_eq_true, decide_eq_true_eq, areWellFormed_iff entries]
    constructor
    · intro ⟨ascending, h⟩
      exact .dir ascending (fun e he ↦ (h e he).1) fun e he ↦ (h e he).2
    · intro h
      cases h with
      | dir ascending isName below => exact ⟨ascending, fun e he ↦ ⟨isName e he, below e he⟩⟩

theorem areWellFormed_iff : ∀ entries : List (String × Node),
    areWellFormed entries = true ↔ ∀ e ∈ entries, Path.IsName e.1 ∧ e.2.WellFormed
  | [] => by simp [areWellFormed]
  | (name, n) :: rest => by
    rw [areWellFormed, Bool.and_eq_true, Bool.and_eq_true, decide_eq_true_eq, isWellFormed_iff n,
      areWellFormed_iff rest, List.forall_mem_cons]

end

instance (n : Node) : Decidable n.WellFormed :=
  decidable_of_iff (n.isWellFormed = true) (isWellFormed_iff n)

theorem at?_append (root : Node) (place above : Place) :
    root.at? (place ++ above) = (root.at? above).bind fun n ↦ n.at? place := by
  induction place with
  | nil => cases h : root.at? above <;> simp [at?, h]
  | cons name place ih =>
    rw [List.cons_append, at?, ih]
    cases h : root.at? above <;> simp [at?, child?]

theorem at?_reverse_cons (entries : List (String × Node)) (name : String) (names : List String) :
    (dir entries).at? (name :: names).reverse = (entries.lookup name).bind fun n ↦ n.at? names.reverse := by
  rw [List.reverse_cons, at?_append]
  rfl

theorem eq_dir_of_at? {n : Node} {place : Place} {entries : List (String × Node)}
    (h : n.at? place = some (dir entries)) : ∃ entries', n = dir entries' := by
  induction place generalizing entries with
  | nil => exact ⟨entries, Option.some.inj h⟩
  | cons name place ih =>
    rw [at?] at h
    unfold child? at h
    split at h
    · next habove => exact ih habove
    · cases h

/-- One step from the end of a trail: to another trail, or to a link with the given target. -/
def take (root : Node) (here : Trail) (s : String) : Except Reason (Trail ⊕ String) :=
  if isDirectory (here.node? root) = false then .error .notDirectory
  else if s = "." then .ok (.inl here)
  else if s = ".." then .ok (.inl here.tail)
  else
    match lookup (here.node? root) s with
    | .error e => .error e
    | .ok (link target) => .ok (.inr target)
    | .ok n => .ok (.inl ((s, some n) :: here))

section Steps

variable {root : Node} {jump jump' : Trail → String → List String → Except Reason Trail}
variable {here trail trail' : Trail} {a b : List String}

theorem advance_cons (root : Node) (jump : Trail → String → List String → Except Reason Trail)
    (here : Trail) (s : String) (rest : List String) :
    advance root true jump here (s :: rest) =
      match take root here s with
      | .error e => .error e
      | .ok (.inl next) => advance root true jump next rest
      | .ok (.inr target) => jump here target rest := by
  rw [advance, take]
  split
  · rfl
  · split
    · rfl
    · split
      · rfl
      · cases lookup (here.node? root) s with
        | error e => rfl
        | ok n => cases n <;> simp

theorem advance_append
    (hjump : ∀ here target rest, jump here target rest = .ok trail → jump' here target (rest ++ b) = .ok trail')
    (hb : advance root true jump' trail b = .ok trail') (h : advance root true jump here a = .ok trail) :
    advance root true jump' here (a ++ b) = .ok trail' := by
  induction a generalizing here with
  | nil =>
    obtain rfl : here = trail := by simpa [advance] using h
    exact hb
  | cons s rest ih =>
    rw [advance_cons] at h
    rw [List.cons_append, advance_cons]
    match take root here s, h with
    | .ok (.inl next), h => exact ih h
    | .ok (.inr target), h => exact hjump _ _ _ h

theorem advance_of_append_here
    (hjump : ∀ here target rest,
      jump' here target (rest ++ ["."]) = .ok trail → jump here target rest = .ok trail)
    (h : advance root true jump' here (a ++ ["."]) = .ok trail) :
    advance root true jump here a = .ok trail := by
  induction a generalizing here with
  | nil =>
    rw [List.nil_append, advance] at h
    split at h
    · cases h
    · simpa [advance] using h
  | cons s rest ih =>
    rw [List.cons_append, advance_cons] at h
    rw [advance_cons]
    match take root here s, h with
    | .ok (.inl next), h => exact ih h
    | .ok (.inr target), h => exact hjump _ _ _ h

theorem follow_append {links : Nat} (hb : ∀ jump, advance root true jump trail b = .ok trail')
    (h : root.follow true links here a = .ok trail) : root.follow true links here (a ++ b) = .ok trail' := by
  induction links generalizing here a with
  | zero =>
    refine advance_append (fun _ _ _ hjump ↦ ?_) (hb _) h
    cases hjump
  | succ links ih =>
    refine advance_append (fun _ target rest hjump ↦ ?_) (hb _) h
    by_cases htarget : target = ""
    · simp [htarget] at hjump
    · simp only [htarget, if_false] at hjump ⊢
      rw [← List.append_assoc]
      exact ih hjump

theorem follow_of_append_here {links : Nat} (h : root.follow true links here (a ++ ["."]) = .ok trail) :
    root.follow true links here a = .ok trail := by
  induction links generalizing here a with
  | zero =>
    refine advance_of_append_here (fun _ _ _ hjump ↦ ?_) h
    cases hjump
  | succ links ih =>
    refine advance_of_append_here (fun _ target rest hjump ↦ ?_) h
    by_cases htarget : target = ""
    · simp [htarget] at hjump
    · simp only [htarget, if_false] at hjump ⊢
      rw [← List.append_assoc] at hjump
      exact ih hjump

end Steps

section Resolution

variable {root : Node} {place : Place} {t name : String} {here : Trail} {entries : List (String × Node)}

theorem resolve_ok (h : root.resolve true place t = .ok here) :
    t ≠ "" ∧ '\x00' ∉ t.toList ∧ t.utf8ByteSize ≤ Path.limit ∧
      root.follow true linkLimit (startOf (root.trail place) t) (Path.steps t) = .ok here := by
  unfold resolve at h
  split at h
  · cases h
  · next hne =>
    split at h
    · cases h
    · next hzero =>
      split at h
      · cases h
      · next hsize => exact ⟨hne, by simpa using hzero, by omega, h⟩

theorem resolve_of_follow (hne : t ≠ "") (hzero : '\x00' ∉ t.toList) (hsize : t.utf8ByteSize ≤ Path.limit)
    (h : root.follow true linkLimit (startOf (root.trail place) t) (Path.steps t) = .ok here) :
    root.resolve true place t = .ok here := by
  rw [resolve, if_neg hne, if_neg (by simpa using hzero), if_neg (by omega), h]

theorem follow_names (h : root.resolve true place t = .ok here) :
    root.follow true linkLimit (startOf (root.trail place) t) (Path.names t) = .ok here := by
  obtain ⟨-, -, -, hfollow⟩ := resolve_ok h
  rw [Path.steps] at hfollow
  split at hfollow
  · exact follow_of_append_here hfollow
  · exact hfollow

/-- The path of an entry that is no link leads to it, unless it is too long. -/
theorem resolve_join (h : root.resolve true place t = .ok here) (hdir : here.node? root = some (dir entries))
    {n : Node} (hname : Path.IsName name) (hlookup : entries.lookup name = some n) (hkind : n.kind ≠ .link)
    (hsize : (Path.join t name).utf8ByteSize ≤ Path.limit) :
    root.resolve true place (Path.join t name) = .ok ((name, some n) :: here) := by
  obtain ⟨hne, hzero, -, -⟩ := resolve_ok h
  have hlast : ∀ jump, advance root true jump here [name] = .ok ((name, some n) :: here) := by
    intro jump
    have hfound : lookup (some (dir entries)) name = .ok n := by
      simp only [lookup, Nat.not_lt.2 hname.fits, if_false, hlookup]
    rw [advance_cons, take, hdir, hfound]
    cases n with
    | link target => exact absurd rfl hkind
    | file content => simp [isDirectory, hname.ne_here, hname.ne_above, advance]
    | dir below => simp [isDirectory, hname.ne_here, hname.ne_above, advance]
  refine resolve_of_follow (Path.join_ne_empty t hname) ?_ hsize ?_
  · intro hmem
    rcases Path.mem_toList_join hmem with hmem | heq | hmem
    · exact hzero hmem
    · exact absurd heq (by decide)
    · exact hname.no_zero hmem
  · rw [Path.steps_join t hname, startOf, Path.isAbsolute_join hne]
    exact follow_append hlast (follow_names h)

theorem exists_trail_of_reach {n : Node} (h : root.reach place t = .ok (some n)) :
    ∃ here, root.resolve true place t = .ok here ∧ here.node? root = some n := by
  cases hres : root.resolve true place t with
  | error e => simp [reach, hres, Except.map] at h
  | ok here => exact ⟨here, rfl, by simpa [reach, hres, Except.map] using h⟩

theorem reach_of_resolve {n : Node} (hres : root.resolve true place t = .ok here)
    (hnode : here.node? root = some n) : root.reach place t = .ok (some n) := by
  rw [reach, hres, Except.map, hnode]

theorem eq_of_reach_join (h : root.reach place t = .ok (some (dir entries))) {m n : Node}
    (hname : Path.IsName name) (hlookup : entries.lookup name = some m) (hkind : m.kind ≠ .link)
    (hn : root.reach place (Path.join t name) = .ok (some n)) : n = m := by
  obtain ⟨here, hres, hdir⟩ := exists_trail_of_reach h
  obtain ⟨there, hres', hn⟩ := exists_trail_of_reach hn
  have hjoin := resolve_join hres hdir hname hlookup hkind (resolve_ok hres').2.2.1
  rw [hres'] at hjoin
  cases hjoin
  exact (Option.some.inj hn).symm

/-- What a path leads to, if anything, is a tree as a file system keeps it. -/
structure Proper (root : Node) (place : Place) (t : String) : Prop where
  wellFormed : ∀ n, root.reach place t = .ok (some n) → n.WellFormed

namespace Proper

variable (h : root.Proper place t) (hreach : root.reach place t = .ok (some (dir entries)))

include h hreach

theorem ascending : Keyed.Ascending entries := by
  cases h.wellFormed _ hreach with
  | dir ascending isName below => exact ascending

theorem isName {e : String × Node} (he : e ∈ entries) : Path.IsName e.1 := by
  cases h.wellFormed _ hreach with
  | dir ascending isName below => exact isName e he

variable {e : String × Node} (he : e ∈ entries) (hkind : e.2.kind ≠ .link)

include he hkind

theorem eq_of_reach {n : Node} (hn : root.reach place (Path.join t e.1) = .ok (some n)) : n = e.2 :=
  eq_of_reach_join hreach (h.isName hreach he) ((h.ascending hreach).lookup_eq_some_iff.2 he) hkind hn

theorem entry : root.Proper place (Path.join t e.1) where
  wellFormed n hn := by
    rw [h.eq_of_reach hreach he hkind hn]
    cases h.wellFormed _ hreach with
    | dir ascending isName below => exact below e he

theorem reach_entry (hsize : (Path.join t e.1).utf8ByteSize ≤ Path.limit) :
    root.reach place (Path.join t e.1) = .ok (some e.2) := by
  obtain ⟨here, hres, hdir⟩ := exists_trail_of_reach hreach
  have hfound := (h.ascending hreach).lookup_eq_some_iff.2 he
  exact reach_of_resolve (resolve_join hres hdir (h.isName hreach he) hfound hkind hsize) rfl

end Proper

theorem place_of_resolve_under (h : root.Proper place t) {n : Node} (hres : root.resolve true place t = .ok here)
    (hnode : here.node? root = some n) {p : List String}
    (hat : p ≠ [] → ∃ entries, n.at? p.reverse = some (dir entries)) {there : Trail}
    (hthere : root.resolve true place (Path.under t p) = .ok there) :
    there.place = p.reverse ++ here.place := by
  induction p generalizing t here n with
  | nil =>
    obtain rfl : here = there := Except.ok.inj (hres.symm.trans hthere)
    rfl
  | cons name rest ih =>
    obtain ⟨entries, hat⟩ := hat (List.cons_ne_nil _ _)
    obtain ⟨above, rfl⟩ := eq_dir_of_at? hat
    rw [at?_reverse_cons, Option.bind_eq_some_iff] at hat
    obtain ⟨m, hfound, hat⟩ := hat
    obtain ⟨below, rfl⟩ := eq_dir_of_at? hat
    have hreach := reach_of_resolve hres hnode
    have hmem := (h.ascending hreach).lookup_eq_some_iff.1 hfound
    have hname : Path.IsName name := h.isName hreach hmem
    rw [Path.under_cons t hname] at hthere
    have hsize : (Path.join t name).utf8ByteSize ≤ Path.limit :=
      Nat.le_trans (Path.size_le_size_under _ rest) (resolve_ok hthere).2.2.1
    have hjoin := resolve_join hres hnode hname hfound (by simp [kind]) hsize
    rw [ih (h.entry hreach hmem (by simp [kind])) hjoin rfl (fun _ ↦ ⟨entries, hat⟩) hthere, List.reverse_cons,
      List.append_assoc]
    rfl

end Resolution

section Heredity

variable {P : Node → Prop}

def Hereditary (P : Node → Prop) : Prop :=
  ∀ entries name n, P (dir entries) → entries.lookup name = some n → P n

def AllOn (P : Node → Prop) (t : Trail) : Prop :=
  ∀ e ∈ t, ∀ n, e.2 = some n → P n

theorem AllOn.node? {root n : Node} {t : Trail} (h : AllOn P t) (hroot : P root) (hn : t.node? root = some n) :
    P n := by
  cases t with
  | nil => exact Option.some.inj hn ▸ hroot
  | cons e rest => exact h e List.mem_cons_self n hn

theorem AllOn.cons {t : Trail} (h : AllOn P t) {name : String} {n? : Option Node}
    (hn : ∀ n, n? = some n → P n) : AllOn P ((name, n?) :: t) := by
  intro e he n heq
  rcases List.mem_cons.1 he with rfl | he
  · exact hn n heq
  · exact h e he n heq

theorem AllOn.tail {t : Trail} (h : AllOn P t) : AllOn P t.tail :=
  fun e he ↦ h e (List.mem_of_mem_tail he)

theorem AllOn.startOf {t : Trail} (h : AllOn P t) (path : String) : AllOn P (startOf t path) := by
  rw [Node.startOf]
  split
  · simp [AllOn]
  · exact h

theorem allOn_trail (hP : Hereditary P) {root : Node} (hroot : P root) (place : Place) :
    AllOn P (root.trail place) := by
  induction place with
  | nil => simp [trail, AllOn]
  | cons name place ih =>
    refine ih.cons fun n hn ↦ ?_
    unfold child? at hn
    split at hn
    · next hdir => exact hP _ _ _ (ih.node? hroot hdir) hn
    · cases hn

theorem lookup_of_hereditary (hP : Hereditary P) {n? : Option Node} (hn : ∀ n, n? = some n → P n) {s : String}
    {n : Node} (h : lookup n? s = .ok n) : P n := by
  unfold lookup at h
  split at h
  · next entries name =>
    split at h
    · cases h
    · split at h
      · next hfound =>
        cases h
        exact hP _ _ _ (hn _ rfl) hfound
      · cases h
  · cases h
  · cases h

theorem allOn_take (hP : Hereditary P) {root : Node} (hroot : P root) {here next : Trail} {s : String}
    (hhere : AllOn P here) (h : root.take here s = .ok (.inl next)) : AllOn P next := by
  unfold take at h
  split at h
  · cases h
  · split at h
    · cases h
      exact hhere
    · split at h
      · cases h
        exact hhere.tail
      · cases hfound : lookup (here.node? root) s with
        | error e => simp [hfound] at h
        | ok n =>
          have hn : P n := lookup_of_hereditary hP (fun _ ↦ hhere.node? hroot) hfound
          have hnext : AllOn P ((s, some n) :: here) := hhere.cons fun m hm ↦ Option.some.inj hm ▸ hn
          cases n with
          | link target => simp [hfound] at h
          | file content => simp only [hfound] at h; cases h; exact hnext
          | dir entries => simp only [hfound] at h; cases h; exact hnext

theorem allOn_advance (hP : Hereditary P) {root : Node} (hroot : P root)
    {jump : Trail → String → List String → Except Reason Trail}
    (hjump : ∀ here target rest t, AllOn P here → jump here target rest = .ok t → AllOn P t)
    {here t : Trail} {steps : List String} (hhere : AllOn P here)
    (h : advance root true jump here steps = .ok t) : AllOn P t := by
  induction steps generalizing here with
  | nil =>
    cases h
    exact hhere
  | cons s rest ih =>
    rw [advance_cons] at h
    match hs : root.take here s, h with
    | .ok (.inl next), h => exact ih (allOn_take hP hroot hhere hs) h
    | .ok (.inr target), h => exact hjump _ _ _ _ hhere h

theorem allOn_follow (hP : Hereditary P) {root : Node} (hroot : P root) {links : Nat} {here t : Trail}
    {steps : List String} (hhere : AllOn P here) (h : root.follow true links here steps = .ok t) :
    AllOn P t := by
  induction links generalizing here t steps with
  | zero =>
    refine allOn_advance hP hroot (fun _ _ _ _ _ hjump ↦ ?_) hhere h
    cases hjump
  | succ links ih =>
    refine allOn_advance hP hroot (fun here target rest t hhere hjump ↦ ?_) hhere h
    by_cases htarget : target = ""
    · simp [htarget] at hjump
    · simp only [htarget, if_false] at hjump
      exact ih (hhere.startOf target) hjump

/-- What holds of the root and is passed on to entries holds of what a path leads to. -/
theorem reach_of_hereditary (hP : Hereditary P) {root n : Node} (hroot : P root) {place : Place} {t : String}
    (h : root.reach place t = .ok (some n)) : P n := by
  obtain ⟨here, hres, hn⟩ := exists_trail_of_reach h
  obtain ⟨-, -, -, hfollow⟩ := resolve_ok hres
  have hall := allOn_follow hP hroot ((allOn_trail hP hroot place).startOf t) hfollow
  exact hall.node? hroot hn

theorem depth_le_depthOf {entries : List (String × Node)} {e : String × Node} (h : e ∈ entries) :
    e.2.depth ≤ depthOf entries := by
  induction entries with
  | nil => cases h
  | cons head rest ih =>
    obtain ⟨name, n⟩ := head
    rw [depthOf]
    rcases List.mem_cons.1 h with rfl | h
    · exact Nat.le_max_left _ _
    · exact Nat.le_trans (ih h) (Nat.le_max_right _ _)

theorem depth_lt_depth {entries : List (String × Node)} {e : String × Node} (h : e ∈ entries) :
    e.2.depth < (dir entries).depth := by
  rw [depth]
  exact Nat.lt_succ_of_le (depth_le_depthOf h)

theorem mem_of_lookup {entries : List (String × Node)} {name : String} {n : Node}
    (h : entries.lookup name = some n) : (name, n) ∈ entries := by
  obtain ⟨l₁, l₂, rfl, -⟩ := List.lookup_eq_some_iff.1 h
  simp

theorem depth_reach {root n : Node} {place : Place} {t : String} (h : root.reach place t = .ok (some n)) :
    n.depth ≤ root.depth := by
  refine reach_of_hereditary (P := fun m ↦ m.depth ≤ root.depth) ?_ (Nat.le_refl _) h
  intro entries name m hdir hfound
  have hlt : m.depth < (dir entries).depth := depth_lt_depth (mem_of_lookup hfound)
  omega

theorem WellFormed.proper {root : Node} (hroot : root.WellFormed) (place : Place) (t : String) :
    root.Proper place t where
  wellFormed n hn := by
    refine reach_of_hereditary ?_ hroot hn
    intro entries name m hdir hfound
    cases hdir with
    | dir ascending isName below => exact below _ (mem_of_lookup hfound)

end Heredity

end FrontendAudit.Disk.Node
