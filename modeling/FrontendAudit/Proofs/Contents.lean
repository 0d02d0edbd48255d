import FrontendAudit.Proofs.Isolation

namespace FrontendAudit

namespace Disk

inductive Agree {α : Type} (R : α → α → Prop) : Except Reason α → Except Reason α → Prop
  | error (e : Reason) : Agree R (.error e) (.error e)
  | ok {a a' : α} (h : R a a') : Agree R (.ok a) (.ok a')

namespace Node

section Simulation

variable {root root' : Node} {R : Trail → Trail → Prop}

/-- One step in each of two trees from related trails leads to related trails, or to links with one target. -/
def StepsAgree (root root' : Node) (R : Trail → Trail → Prop) : Prop :=
  ∀ here here' s, R here here' → Agree (Sum.LiftRel R Eq) (root.take here s) (root'.take here' s)

theorem agree_advance (hstep : StepsAgree root root' R)
    {jump jump' : Trail → String → List String → Except Reason Trail}
    (hjump : ∀ here here' target rest, R here here' → Agree R (jump here target rest) (jump' here' target rest))
    {here here' : Trail} (h : R here here') (steps : List String) :
    Agree R (advance root true jump here steps) (advance root' true jump' here' steps) := by
  induction steps generalizing here here' with
  | nil => exact .ok h
  | cons s rest ih =>
    have hs := hstep here here' s h
    rw [advance_cons, advance_cons]
    generalize root.take here s = next, root'.take here' s = next' at hs
    cases hs with
    | error e => exact .error e
    | ok hnext =>
      cases hnext with
      | inl hnext => exact ih hnext
      | inr htarget =>
        subst htarget
        exact hjump _ _ _ _ h

theorem agree_follow (hstep : StepsAgree root root' R) (hroot : R [] []) (links : Nat) {here here' : Trail}
    (h : R here here') (steps : List String) :
    Agree R (root.follow true links here steps) (root'.follow true links here' steps) := by
  -- The links that may still be followed bound the jumps; between two of them `agree_advance` does the steps.
  induction links generalizing here here' steps with
  | zero => exact agree_advance hstep (fun _ _ _ _ _ ↦ .error _) h steps
  | succ links ih =>
    refine agree_advance hstep (fun here here' target rest hhere ↦ ?_) h steps
    split
    · exact .error _
    · apply ih
      rw [startOf, startOf]
      split
      · exact hroot
      · exact hhere

end Simulation

/-- The trees have the same names, kinds and links, and the same contents but for the file that the names lead
to. -/
inductive SameButFile : List String → Node → Node → Prop
  | file (content content' : ByteArray) : SameButFile [] (file content) (file content')
  | dir {name : String} {names : List String} {n n' : Node} (before after : List (String × Node))
      (below : SameButFile names n n') :
      SameButFile (name :: names) (dir (before ++ (name, n) :: after)) (dir (before ++ (name, n') :: after))

/-- The path, taken from a place, leads to the place that the names lead to from the root. -/
def LeadsTo (root : Node) (place : Place) (path : String) (names : List String) : Prop :=
  (root.resolve true place path).toOption.map Trail.place = some names.reverse

instance (root : Node) (place : Place) (path : String) (names : List String) :
    Decidable (root.LeadsTo place path names) :=
  inferInstanceAs (Decidable (Option.map Trail.place _ = some names.reverse))

/-- What stands in one place of two trees that are the same but for a file: the same, or directories on the way
to the file, or the file. -/
inductive Twin (file : List String) (place : Place) : Option Node → Option Node → Prop
  | same (n? : Option Node) : Twin file place n? n?
  | differing {names : List String} {n n' : Node} (below : SameButFile names n n')
      (way : place.reverse ++ names = file) : Twin file place (some n) (some n')

inductive Parallel (file : List String) : Trail → Trail → Prop
  | root : Parallel file [] []
  | cons {s : String} {n? n?' : Option Node} {t t' : Trail} (twin : Twin file (s :: t.place) n? n?')
      (above : Parallel file t t') : Parallel file ((s, n?) :: t) ((s, n?') :: t')

theorem lookup_replaced (before after : List (String × Node)) (name : String) (n n' : Node) (s : String) :
    (before ++ (name, n) :: after).lookup s = (before ++ (name, n') :: after).lookup s ∨
      s = name ∧ (before ++ (name, n) :: after).lookup s = some n ∧
        (before ++ (name, n') :: after).lookup s = some n' := by
  induction before with
  | nil =>
    by_cases h : s = name
    · subst h
      exact .inr ⟨rfl, List.lookup_cons_self, List.lookup_cons_self⟩
    · left
      rw [List.nil_append, List.nil_append, Keyed.lookup_cons_of_ne h, Keyed.lookup_cons_of_ne h]
  | cons e before ih =>
    obtain ⟨k, m⟩ := e
    rw [List.cons_append, List.cons_append]
    by_cases h : s = k
    · subst h
      left
      rw [List.lookup_cons_self, List.lookup_cons_self]
    · rw [Keyed.lookup_cons_of_ne h, Keyed.lookup_cons_of_ne h]
      exact ih

theorem listing_replaced (before after : List (String × Node)) (name : String) {n n' : Node}
    (h : n.kind = n'.kind) :
    listing (before ++ (name, n) :: after) = listing (before ++ (name, n') :: after) := by
  simp only [listing, List.map_append, List.map_cons, h]

theorem depthOf_replaced (before after : List (String × Node)) (name : String) {n n' : Node}
    (h : n.depth = n'.depth) :
    depthOf (before ++ (name, n) :: after) = depthOf (before ++ (name, n') :: after) := by
  induction before with
  | nil => rw [List.nil_append, List.nil_append, depthOf, depthOf, h]
  | cons e before ih => rw [List.cons_append, List.cons_append, depthOf, depthOf, ih]

theorem SameButFile.kind_eq {file : List String} {n n' : Node} (h : SameButFile file n n') : n.kind = n'.kind := by
  cases h <;> rfl

theorem SameButFile.depth_eq {file : List String} {n n' : Node} (h : SameButFile file n n') :
    n.depth = n'.depth := by
  induction h with
  | file content content' => rw [depth, depth]
  | dir before after below ih => rw [depth, depth, depthOf_replaced before after _ ih]

section Places

variable {file : List String} {place : Place} {n? n?' : Option Node}

theorem Twin.isDirectory_eq (h : Twin file place n? n?') : isDirectory n? = isDirectory n?' := by
  cases h with
  | same => rfl
  | differing below way => cases below <;> rfl

theorem Twin.replaced {name : String} {names : List String} {n n' : Node} (below : SameButFile names n n')
    (way : place.reverse ++ name :: names = file) (before after : List (String × Node)) (s : String) :
    Twin file (s :: place) ((before ++ (name, n) :: after).lookup s) ((before ++ (name, n') :: after).lookup s) := by
  rcases lookup_replaced before after name n n' s with h | ⟨rfl, h, h'⟩
  · rw [h]
    exact .same _
  · rw [h, h']
    exact .differing below (by rwa [List.reverse_cons, List.append_assoc])

theorem Twin.child? (h : Twin file place n? n?') (s : String) :
    Twin file (s :: place) (child? n? s) (child? n?' s) := by
  cases h with
  | same => exact .same _
  | differing below way =>
    cases below with
    | file content content' => exact .same _
    | dir before after below => exact .replaced below way before after s

theorem Twin.lookup (h : Twin file place n? n?') (s : String) :
    Agree (fun n n' ↦ Twin file (s :: place) (some n) (some n')) (lookup n? s) (lookup n?' s) := by
  cases h with
  | same =>
    cases Node.lookup n? s with
    | error e => exact .error e
    | ok n => exact .ok (.same _)
  | differing below way =>
    cases below with
    | file content content' => exact .error _
    | @dir name names n n' before after below =>
      have hfound := Twin.replaced below way before after s
      rw [Node.lookup, Node.lookup]
      generalize (before ++ (name, n) :: after).lookup s = found,
        (before ++ (name, n') :: after).lookup s = found' at hfound
      split
      · exact .error _
      · cases hfound with
        | same =>
          cases found with
          | none => exact .error _
          | some n => exact .ok (.same _)
        | differing below way => exact .ok (.differing below way)

end Places

section Trails

variable {root root' : Node} {file : List String} (hroot : SameButFile file root root')

theorem Parallel.tail {here here' : Trail} (h : Parallel file here here') :
    Parallel file here.tail here'.tail := by
  cases h with
  | root => exact .root
  | cons twin above => exact above

include hroot

theorem Parallel.node? {here here' : Trail} (h : Parallel file here here') :
    Twin file here.place (here.node? root) (here'.node? root') := by
  cases h with
  | root => exact .differing hroot rfl
  | cons twin above => exact twin

theorem parallel_trail (place : Place) : Parallel file (root.trail place) (root'.trail place) := by
  induction place with
  | nil => exact .root
  | cons s place ih => exact .cons ((ih.node? hroot).child? s) ih

theorem stepsAgree : StepsAgree root root' (Parallel file) := by
  intro here here' s h
  have hnode := h.node? hroot
  have hfound := hnode.lookup s
  rw [take, take, hnode.isDirectory_eq]
  split
  · exact .error _
  · split
    · exact .ok (.inl h)
    · split
      · exact .ok (.inl h.tail)
      · generalize lookup (here.node? root) s = found, lookup (here'.node? root') s = found' at hfound
        cases hfound with
        | error e => exact .error e
        | @ok n n' twin =>
          have hnext : Parallel file ((s, some n) :: here) ((s, some n') :: here') := .cons twin h
          cases twin with
          | same =>
            cases n with
            | link target => exact .ok (.inr rfl)
            | file content => exact .ok (.inl hnext)
            | dir entries => exact .ok (.inl hnext)
          | differing below way =>
            cases below with
            | file content content' => exact .ok (.inl hnext)
            | dir before after below => exact .ok (.inl hnext)

theorem agree_resolve (place : Place) (path : String) :
    Agree (Parallel file) (root.resolve true place path) (root'.resolve true place path) := by
  have hstart : Parallel file (startOf (root.trail place) path) (startOf (root'.trail place) path) := by
    rw [startOf, startOf]
    split
    · exact .root
    · exact parallel_trail hroot place
  rw [resolve, resolve]
  split
  · exact .error _
  · split
    · exact .error _
    · split
      · exact .error _
      · exact agree_follow (stepsAgree hroot) .root linkLimit hstart _

/-- A path leads to the same in both trees, to directories that list the same, or to the file. -/
theorem reach_cases (place : Place) (path : String) :
    root.reach place path = root'.reach place path ∨
      (∃ entries entries', root.reach place path = .ok (some (dir entries)) ∧
        root'.reach place path = .ok (some (dir entries')) ∧ listing entries = listing entries') ∨
      ∃ content content', root.reach place path = .ok (some (Node.file content)) ∧
        root'.reach place path = .ok (some (Node.file content')) ∧ root.LeadsTo place path file := by
  have hagree := agree_resolve hroot place path
  rw [reach, reach, LeadsTo]
  generalize root.resolve true place path = found, root'.resolve true place path = found' at hagree
  cases hagree with
  | error e => exact .inl rfl
  | @ok here here' h =>
    have hnode := h.node? hroot
    simp only [Except.map]
    generalize here.node? root = n?, here'.node? root' = n?' at hnode
    cases hnode with
    | same => exact .inl rfl
    | differing below way =>
      cases below with
      | file content content' =>
        rw [List.append_nil] at way
        have hleads : some here.place = some file.reverse := by rw [← way, List.reverse_reverse]
        exact .inr (.inr ⟨content, content', rfl, rfl, hleads⟩)
      | dir before after below =>
        exact .inr (.inl ⟨_, _, rfl, rfl, listing_replaced before after _ below.kind_eq⟩)

theorem inspect_sameButFile (place : Place) : (root.disk place).inspect = (root'.disk place).inspect := by
  funext path
  rcases reach_cases hroot place path with h | ⟨_, _, h, h', -⟩ | ⟨_, _, h, h', -⟩
  · simp only [disk, h]
  · simp only [disk, h, h']
  · simp only [disk, h, h']

theorem list_sameButFile (place : Place) : (root.disk place).list = (root'.disk place).list := by
  funext path
  rcases reach_cases hroot place path with h | ⟨_, _, h, h', hlisting⟩ | ⟨_, _, h, h', -⟩
  · simp only [disk, h]
  · simp only [disk, h, h', hlisting]
  · simp only [disk, h, h']

theorem read_sameButFile {place : Place} {path : String} (hpath : ¬root.LeadsTo place path file) :
    (root.disk place).read path = (root'.disk place).read path := by
  rcases reach_cases hroot place path with h | ⟨_, _, h, h', -⟩ | ⟨_, _, -, -, hleads⟩
  · simp only [disk, h]
  · simp only [disk, h, h']
  · exact absurd hleads hpath

end Trails

end Node

end Disk

namespace Audit

open Disk (Node)

/-- What one file holds decides neither which targets there are nor which files are handed out, and the entry of a
path in the report set does not depend on it unless the path leads to that file. -/
theorem contents_decide_own_entry (w : Disk.Workspace) (root' : Node) (file : List String)
    (h : Node.SameButFile file w.root root') (host : Host) (paths : List String) :
    let w' := { w with root := root' }
    Target.all w.disk paths = Target.all w'.disk paths ∧
      (∀ t, Walk.files w.disk t = Walk.files w'.disk t) ∧
      ∀ path, ¬w.root.LeadsTo w.cwd path file →
        (scan (host.withDisk w.disk) paths).reports.get? path =
          (scan (host.withDisk w'.disk) paths).reports.get? path := by
  intro w'
  have hinspect : w.disk.inspect = w'.disk.inspect := by
    simp only [w', Disk.Workspace.disk, Disk.Workspace.sound, Disk.withFaults, Node.inspect_sameButFile h]
  have hlist : w.disk.list = w'.disk.list := by
    simp only [w', Disk.Workspace.disk, Disk.Workspace.sound, Disk.withFaults, Node.list_sameButFile h]
  have htargets : Target.all w.disk paths = Target.all w'.disk paths :=
    Target.all_congr (fun r _ ↦ congrFun hinspect r) paths
  have hfiles : ∀ t, Walk.files w.disk t = Walk.files w'.disk t :=
    Walk.files_congr hinspect h.depth_eq fun t ↦ by rw [hlist]
  refine ⟨htargets, hfiles, ?_⟩
  intro path hpath
  have hread : w.disk.read path = w'.disk.read path := by
    simp only [w', Disk.Workspace.disk, Disk.Workspace.sound, Disk.withFaults, Node.read_sameButFile h hpath]
  rw [reports_scan_withDisk, reports_scan_withDisk, htargets]
  exact get?_collect_congr hfiles hread

theorem contents_decide_own_entry_linked :
    let tree : ByteArray → Node := fun content ↦ .dir [("a.ts", .file content), ("b.ts", .link "a.ts"),
      ("src", .dir [("c.ts", .file "top: 5px".toUTF8)])]
    let w : Disk.Workspace := { root := tree "p-[13px]".toUTF8, cwd := [] }
    let w' : Disk.Workspace := { root := tree .empty, cwd := [] }
    let entryAt := fun (disk : Disk) (path : String) ↦ (scan { disk } ["."]).reports.get? path
    Walk.files w.disk "." = Walk.files w'.disk "." ∧
      Walk.files w.disk "." = ["./a.ts", "./b.ts", "./src/c.ts"] ∧
      w.root.LeadsTo w.cwd "./b.ts" ["a.ts"] ∧ ¬w.root.LeadsTo w.cwd "./src/c.ts" ["a.ts"] ∧
      entryAt w.disk "./src/c.ts" = entryAt w'.disk "./src/c.ts" ∧
      (entryAt w.disk "./src/c.ts").isSome ∧ (entryAt w.disk "./b.ts").isSome ∧ entryAt w'.disk "./b.ts" = none := by
  intro tree w w' entryAt
  have hsame : Node.SameButFile ["a.ts"] w.root w'.root := .dir [] _ (.file _ _)
  have hother : ¬w.root.LeadsTo w.cwd "./src/c.ts" ["a.ts"] := by decide +kernel
  obtain ⟨-, hfiles, hentries⟩ :=
    contents_decide_own_entry w w'.root ["a.ts"] hsame { disk := w.disk } ["."]
  exact ⟨hfiles ".", by decide +kernel, by decide +kernel, hother, hentries _ hother, by decide +kernel,
    by decide +kernel, by decide +kernel⟩

end Audit

end FrontendAudit
