import FrontendAudit.Disk.Workspace
import FrontendAudit.Proofs.Loss
import FrontendAudit.Proofs.Scan

namespace FrontendAudit

namespace Walk

open Disk (Node)
open Disk.Path (IsName join)

section Files

variable {disk disk' : Disk} {t : String} {n : Node}

theorem files_congr (hinspect : disk'.inspect = disk.inspect) (hdepth : disk'.depth = disk.depth)
    (hlist : ∀ path, (disk'.list path).toOption = (disk.list path).toOption) (t : String) :
    files disk' t = files disk t := by
  have hbelow : ∀ depth t,
      (below disk' depth t).filterMap Visit.path? = (below disk depth t).filterMap Visit.path? := by
    intro depth
    induction depth with
    | zero => exact fun _ ↦ rfl
    | succ depth ih =>
      intro t
      have ht := hlist t
      rw [below, below]
      cases hl : disk.list t with
      | error e =>
        cases hl' : disk'.list t with
        | error e' => rfl
        | ok listed => simp [hl, hl', Except.toOption] at ht
      | ok listed =>
        cases hl' : disk'.list t with
        | error e' => simp [hl, hl', Except.toOption] at ht
        | ok listed' =>
          obtain rfl : listed' = listed := by simpa [hl, hl', Except.toOption] using ht
          simp only [List.filterMap_append, List.filterMap_flatMap, ih, visit?_congr hinspect]
  rw [files, files, visits, visits, hinspect, hdepth]
  split
  · rfl
  · exact hbelow _ t

inductive HandedFrom (disk : Disk) (f : String) : Prop
  | intro {dir : String} {listed : List Disk.Entry} {a : Disk.Entry} (list : disk.list dir = .ok listed)
      (ascending : listed.Pairwise fun d e ↦ d.name < e.name) (isName : ∀ e ∈ listed, IsName e.name)
      (mem : a ∈ listed) (handed : handed disk dir a = true) (path : f = join dir a.name)

theorem handedFrom_of_mem_below {depth : Nat} (h : Shows disk t n) :
    ∀ f ∈ (below disk depth t).filterMap Visit.path?, HandedFrom disk f := by
  refine h.walk_induction (motive := fun depth t _ ↦
    ∀ f ∈ (below disk depth t).filterMap Visit.path?, HandedFrom disk f) depth ?_ ?_ ?_
  · intro dir n f hf
    cases hf
  · intro depth dir n e list f hf
    rw [files_below_of_error list] at hf
    cases hf
  · intro depth dir entries list ascending isName ih f hf
    rw [below_of_ok list, List.filterMap_append, files_of_entries, List.filterMap_flatMap] at hf
    rcases List.mem_append.1 hf with hf | hf
    · obtain ⟨p, hp, rfl⟩ := List.mem_map.1 hf
      obtain ⟨a, ha, rfl⟩ := List.mem_map.1 hp
      obtain ⟨hmem, hhanded⟩ := List.mem_filter.1 ha
      exact .intro list (List.pairwise_map.2 ascending) (List.forall_mem_map.2 isName) hmem hhanded
        (Disk.Path.under_singleton dir a.name)
    · obtain ⟨a, ha, hf⟩ := List.mem_flatMap.1 hf
      obtain ⟨inner, -, hinner⟩ := ih a ha
      exact hinner f hf

end Files

end Walk

namespace Disk

theorem faultFor?_cons (f : Fault) (faults : List Fault) (request : Request) (path : String) :
    faultFor? (f :: faults) request path =
      if f.request = request ∧ f.path = path then some f.reason else faultFor? faults request path := by
  rw [faultFor?, List.find?_cons]
  by_cases h : f.request = request ∧ f.path = path <;> simp [h, faultFor?]

namespace Workspace

section

variable (w : Workspace) {request : Request} (path : String) (reason : Reason)

theorem inspect_addFault (h : request ≠ .inspecting) :
    (w.addFault ⟨request, path, reason⟩).disk.inspect = w.disk.inspect := by
  funext x
  simp [disk, sound, addFault, withFaults, faultFor?_cons, h]

theorem list_addFault_opening :
    (w.addFault ⟨.opening, path, reason⟩).disk.list path = .error ⟨.opening, path, reason⟩ := by
  simp [disk, addFault, withFaults, faultFor?_cons]

theorem list_addFault_of_ne {x : String} (h : request = .opening → x ≠ path) :
    (w.addFault ⟨request, path, reason⟩).disk.list x = w.disk.list x := by
  have hfault : faultFor? (⟨request, path, reason⟩ :: w.faults) .opening x = faultFor? w.faults .opening x := by
    rw [faultFor?_cons, if_neg]
    exact fun heq ↦ h heq.1 heq.2.symm
  simp only [disk, sound, addFault, withFaults, hfault]

theorem read_addFault_of_ne {x : String} (h : x ≠ path) :
    (w.addFault ⟨request, path, reason⟩).disk.read x = w.disk.read x := by
  have hfault : ∀ r, faultFor? (⟨request, path, reason⟩ :: w.faults) r x = faultFor? w.faults r x := by
    intro r
    rw [faultFor?_cons, if_neg]
    exact fun heq ↦ h heq.2.symm
  simp only [disk, sound, addFault, withFaults, hfault]

theorem unlisted_addFault :
    Walk.Unlisted w.disk (w.addFault ⟨.opening, path, reason⟩).disk path ⟨.opening, path, reason⟩ where
  inspect := w.inspect_addFault path reason (by decide)
  depth := rfl
  failed := w.list_addFault_opening path reason
  elsewhere x hx := w.list_addFault_of_ne path reason fun _ ↦ hx

/-- A file that cannot be opened or read gives an error: that of the fault, or that of an earlier failure to
open it. -/
theorem exists_read_addFault (h : request = .opening ∨ request = .reading) :
    ∃ e, (w.addFault ⟨request, path, reason⟩).disk.read path = .error e ∧
      (e = ⟨request, path, reason⟩ ∨
        request = .reading ∧ w.disk.read path = .error e ∧ e.request = .opening) := by
  rcases h with rfl | rfl
  · exact ⟨⟨.opening, path, reason⟩, by simp [disk, addFault, withFaults, faultFor?_cons], .inl rfl⟩
  · have hopening : faultFor? (⟨.reading, path, reason⟩ :: w.faults) .opening path =
        faultFor? w.faults .opening path := by
      simp [faultFor?_cons]
    have hreading : faultFor? (⟨.reading, path, reason⟩ :: w.faults) .reading path = some reason := by
      simp [faultFor?_cons]
    simp only [disk, sound, addFault, withFaults, hopening, hreading]
    cases faultFor? w.faults .opening path with
    | some r => exact ⟨_, rfl, .inr ⟨trivial, rfl, rfl⟩⟩
    | none =>
      cases (w.root.disk w.cwd).read path with
      | ok content => exact ⟨_, rfl, .inl rfl⟩
      | error e =>
        obtain ⟨r, p, why⟩ := e
        cases r with
        | opening => exact ⟨_, rfl, .inr ⟨trivial, rfl, rfl⟩⟩
        | inspecting => exact ⟨_, rfl, .inl rfl⟩
        | reading => exact ⟨_, rfl, .inl rfl⟩
        | listing => exact ⟨_, rfl, .inl rfl⟩

end

/-- A handed out file cannot be listed. A link to a directory is handed out only if looking at it fails. -/
theorem list_ne_ok_of_mem_files {w : Workspace} {t f : String} (hproper : w.root.Proper w.cwd t)
    (hfault : faultFor? w.faults .inspecting f = none) (hf : f ∈ Walk.files w.disk t) (listed : List Entry) :
    w.disk.list f ≠ .ok listed := by
  intro hlist
  obtain ⟨below, hreach, -⟩ := Walk.exists_reach_of_list hlist
  have hinspect : w.disk.inspect f = .ok .directory := by
    simp only [disk, withFaults, hfault]
    exact Walk.inspect_of_reach hreach
  by_cases hregular : w.disk.inspect t = .ok .regular
  · rw [Walk.files, Walk.visits_of_regular hregular] at hf
    obtain rfl : f = t := List.mem_singleton.1 hf
    rw [hinspect] at hregular
    cases hregular
  · rw [Walk.files, Walk.visits_of_not_regular hregular] at hf
    obtain ⟨n, hshows, -, -⟩ := Walk.exists_shown w.faults hproper
    obtain @⟨dir, _, _, list, ascending, isName, hmem, hhanded, rfl⟩ := Walk.handedFrom_of_mem_below hshows f hf
    obtain ⟨entries, hdir, rfl⟩ := Walk.exists_reach_of_list list
    obtain ⟨⟨name, m⟩, hm, rfl⟩ := List.mem_map.1 hmem
    rw [Node.listing, List.pairwise_map] at ascending
    have hfound := Keyed.Ascending.lookup_eq_some_iff ascending |>.2 hm
    have hnot : Walk.isDir w.disk dir ⟨name, m.kind⟩ ≠ true := by
      rw [Walk.handed, Bool.and_eq_true, Bool.not_eq_true'] at hhanded
      exact Bool.eq_false_iff.1 hhanded.1
    rw [Ne, Walk.isDir_iff, hinspect, eq_self, and_true, not_or] at hnot
    have hsame : Node.dir below = m :=
      Node.eq_of_reach_join hdir (isName _ hmem) hfound hnot.2 hreach
    exact hnot.1 (hsame ▸ rfl)

theorem files_addFault_of_list_ne_ok (w : Workspace) {request : Request} {path : String} (reason : Reason)
    (h : request ≠ .inspecting) (hlist : ∀ listed, w.disk.list path ≠ .ok listed) (t : String) :
    Walk.files (w.addFault ⟨request, path, reason⟩).disk t = Walk.files w.disk t := by
  refine Walk.files_congr (w.inspect_addFault path reason h) rfl (fun x ↦ ?_) t
  by_cases hx : request = .opening ∧ x = path
  · obtain ⟨rfl, rfl⟩ := hx
    rw [list_addFault_opening]
    cases hl : w.disk.list x with
    | ok listed => exact absurd hl (hlist listed)
    | error e => rfl
  · rw [list_addFault_of_ne w path reason fun hopening heq ↦ hx ⟨hopening, heq⟩]

end Workspace

end Disk

namespace Audit

def Host.withDisk (host : Host) (disk : Disk) : Host :=
  { host with disk }

theorem reports_scan_withDisk (host : Host) (disk : Disk) (paths : List String) :
    (scan (host.withDisk disk) paths).reports = collect disk (host.deadline.admitted (Target.all disk paths)) :=
  reports_scan (host.withDisk disk) paths

theorem error?_run_withDisk (host : Host) (disk : Disk) (paths : List String) :
    (run (host.withDisk disk) paths).error? =
      if (host.deadline.spent (Target.all disk paths)).passed then some .canceled
      else host.writeError?.map fun e ↦ .unwritten e.reason :=
  error?_run (host.withDisk disk) paths

section

variable {disk disk' : Disk} {targets : List String} {path : String}

theorem handedOut_congr (hfiles : ∀ t, Walk.files disk' t = Walk.files disk t) :
    HandedOut disk' targets path ↔ HandedOut disk targets path := by
  simp only [HandedOut, hfiles]

theorem get?_collect_congr (hfiles : ∀ t, Walk.files disk' t = Walk.files disk t)
    (hread : disk'.read path = disk.read path) :
    (collect disk' targets).get? path = (collect disk targets).get? path := by
  have hcheck : Source.check disk' path = Source.check disk path := by
    simp only [Source.check, Source.lines, hread]
  refine Option.ext fun findings ↦ ?_
  rw [get?_collect_eq_some_iff, get?_collect_eq_some_iff, handedOut_congr hfiles, hcheck]

theorem get?_collect_of_read_error {e : Disk.Error} (h : HandedOut disk targets path)
    (hread : disk.read path = .error e) :
    (collect disk targets).get? path = some [⟨0, "Could not read file: " ++ e.message⟩] := by
  have hcheck : Source.check disk path = Source.unreadable (.disk e) := by
    simp only [Source.check, Source.lines, hread]
  refine get?_collect_eq_some_iff.2 ⟨h, ?_, List.cons_ne_nil _ _⟩
  rw [hcheck]
  rfl

end

theorem mem_of_admitted {deadline : Deadline} {targets : List String} {t : String}
    (h : t ∈ deadline.admitted targets) : t ∈ targets := by
  cases deadline with
  | none => exact h
  | some n => exact List.mem_of_mem_take h

/-- Failures are isolated. If a directory cannot be opened, the targets whose search lists it lose the files
below it, and the search of the others is the same. If a file that is handed out cannot be opened or read, all
targets hand out the same files, and the report set changes only at the file, with the failure for its one
finding. Neither makes the audit fail. In the second case looking at the path must not fail already: a link to a
directory would then be handed out as a file, although it can be listed. -/
theorem failures_isolated (w : Disk.Workspace) (host : Host) (paths : List String) (path : String)
    (reason : Disk.Reason)
    (hproper : ∀ t ∈ Target.all w.disk paths, w.root.Proper w.cwd t) :
    let faulty := fun request ↦ (w.addFault ⟨request, path, reason⟩).disk
    (∀ t ∈ Target.all w.disk paths,
      (Walk.Lists w.disk t path → Walk.LosesBelow w.disk (faulty .opening) t path reason) ∧
      (¬Walk.Lists w.disk t path → Walk.visits (faulty .opening) t = Walk.visits w.disk t)) ∧
    ∀ request, request = .opening ∨ request = .reading →
      (HandedOut w.disk (host.deadline.admitted (Target.all w.disk paths)) path →
        Disk.faultFor? w.faults .inspecting path = none →
        (∀ t, Walk.files (faulty request) t = Walk.files w.disk t) ∧
        (∀ other, other ≠ path → (scan (host.withDisk (faulty request)) paths).reports.get? other =
          (scan (host.withDisk w.disk) paths).reports.get? other) ∧
        ∃ e, (scan (host.withDisk (faulty request)) paths).reports.get? path =
            some [⟨0, "Could not read file: " ++ e.message⟩] ∧
          (e = ⟨request, path, reason⟩ ∨
            request = .reading ∧ w.disk.read path = .error e ∧ e.request = .opening)) ∧
      (run (host.withDisk (faulty request)) paths).error? = (run (host.withDisk w.disk) paths).error? ∧
      (host.deadline = none → host.writeError? = none →
        (run (host.withDisk (faulty request)) paths).error? = none) := by
  intro faulty
  constructor
  · intro t ht
    obtain ⟨n, hshows, hdepth, -⟩ := Walk.exists_shown w.faults (hproper t ht)
    have hcut := w.unlisted_addFault path reason
    exact ⟨Walk.losesBelow_of_lists hcut hshows hdepth, Walk.visits_of_not_lists hcut hshows hdepth⟩
  · intro request hrequest
    have hinspecting : request ≠ .inspecting := by
      rcases hrequest with rfl | rfl <;> decide
    have htargets : Target.all (faulty request) paths = Target.all w.disk paths :=
      Target.all_congr (fun r _ ↦ congrFun (w.inspect_addFault path reason hinspecting) r) paths
    refine ⟨fun hhanded hfault ↦ ?_, ?_, fun hdeadline hwrite ↦ ?_⟩
    · have hlist : ∀ listed, w.disk.list path ≠ .ok listed := by
        obtain ⟨t, ht, hmem⟩ := hhanded
        exact Disk.Workspace.list_ne_ok_of_mem_files (hproper t (mem_of_admitted ht)) hfault hmem
      have hfiles := w.files_addFault_of_list_ne_ok reason hinspecting hlist
      obtain ⟨e, hread, he⟩ := w.exists_read_addFault path reason hrequest
      refine ⟨hfiles, fun other hother ↦ ?_, e, ?_, he⟩
      · rw [reports_scan_withDisk, reports_scan_withDisk, htargets]
        exact get?_collect_congr hfiles (w.read_addFault_of_ne path reason hother)
      · rw [reports_scan_withDisk, htargets]
        exact get?_collect_of_read_error ((handedOut_congr hfiles).2 hhanded) hread
    · rw [error?_run_withDisk, error?_run_withDisk, htargets]
    · rw [error?_run_withDisk, hdeadline, hwrite]
      rfl

theorem failures_isolated_overlap :
    let w : Disk.Workspace :=
      { root := .dir [("src", .dir [("a", .dir [("b.ts", .file .empty), ("e", .dir [("f.tsx", .file .empty)])]),
          ("c.css", .file .empty), ("z", .dir [("d.ts", .file .empty)])])]
        cwd := [] }
    let paths := ["src", "src/a", "src/z"]
    let shut := (w.addFault ⟨.opening, "src/a", .denied⟩).disk
    let torn := (w.addFault ⟨.reading, "src/a/b.ts", .broken⟩).disk
    (∀ t ∈ Target.all w.disk paths, w.root.Proper w.cwd t) ∧
      Walk.Lists w.disk "src" "src/a" ∧ Walk.LosesBelow w.disk shut "src" "src/a" .denied ∧
      Walk.files w.disk "src" = ["src/c.css", "src/a/b.ts", "src/a/e/f.tsx", "src/z/d.ts"] ∧
      Walk.files shut "src" = ["src/c.css", "src/z/d.ts"] ∧
      (run { disk := shut } paths).error? = none ∧
      HandedOut w.disk paths "src/a/b.ts" ∧ Disk.faultFor? w.faults .inspecting "src/a/b.ts" = none ∧
      (∀ t, Walk.files torn t = Walk.files w.disk t) ∧
      (scan { disk := torn } paths).reports.get? "src/a/b.ts" =
        some [⟨0, "Could not read file: read src/a/b.ts: input/output error"⟩] := by
  intro w paths shut torn
  have hroot : w.root.WellFormed := by decide +kernel
  have hproper : ∀ t, w.root.Proper w.cwd t := hroot.proper w.cwd
  have hlists : Walk.Lists w.disk "src" "src/a" := by
    obtain ⟨n, hshows, hdepth, -⟩ := Walk.exists_shown w.faults (hproper "src")
    have hinspect : (w.disk.inspect "src").toOption = some .directory := by decide +kernel
    refine (Walk.lists_iff hshows hdepth).2 ⟨fun hregular ↦ ?_, ["a"], by decide +kernel, by decide +kernel⟩
    exact absurd (hinspect.symm.trans (congrArg Except.toOption hregular)) (by decide)
  have hhanded : HandedOut w.disk paths "src/a/b.ts" := ⟨"src", by decide, by decide +kernel⟩
  have hread : (w.disk.read "src/a/b.ts").toOption.isSome = true := by decide +kernel
  obtain ⟨hsearch, hshut⟩ :=
    failures_isolated w { disk := w.disk } paths "src/a" .denied fun t _ ↦ hproper t
  obtain ⟨-, htorn⟩ :=
    failures_isolated w { disk := w.disk } paths "src/a/b.ts" .broken fun t _ ↦ hproper t
  have hloses := (hsearch "src" (by decide +kernel)).1 hlists
  obtain ⟨hfiles, -, e, hfinding, he⟩ := (htorn .reading (.inr rfl)).1 hhanded rfl
  refine ⟨fun t _ ↦ hproper t, hlists, hloses, by decide +kernel, by decide +kernel,
    (hshut .opening (.inl rfl)).2.2 rfl rfl, hhanded, rfl, hfiles, ?_⟩
  rcases he with rfl | ⟨-, hfail, -⟩
  · exact hfinding
  · rw [hfail] at hread
    cases hread

end Audit

end FrontendAudit
