import FrontendAudit.Disk.Tree
import FrontendAudit.Proofs.Scan

namespace FrontendAudit.Audit

def Host.cancelledAfter (host : Host) (n : Nat) : Host :=
  { host with deadline := some n }

theorem passed_scan_cancelledAfter (host : Host) (paths : List String) (n : Nat) :
    (scan (host.cancelledAfter n) paths).deadline.passed = true ↔
      n ≤ (Target.all host.disk paths).length := by
  have hspent : (scan (host.cancelledAfter n) paths).deadline =
      some (n - (Target.all host.disk paths).length) := deadline_scan (host.cancelledAfter n) paths
  rw [hspent, ← Nat.sub_eq_zero_iff_le]
  cases n - (Target.all host.disk paths).length <;> simp [Deadline.passed]

theorem reports_cancelledAfter (host : Host) (paths : List String) (n : Nat) :
    (scan (host.cancelledAfter n) paths).reports =
      collect host.disk ((Target.all host.disk paths).take n) :=
  reports_scan (host.cancelledAfter n) paths

theorem run_cancelledAfter_of_lt (host : Host) (paths : List String) {n : Nat}
    (h : (Target.all host.disk paths).length < n) :
    (run (host.cancelledAfter n) paths).output = (run host.uncancelled paths).output ∧
      (run (host.cancelledAfter n) paths).error? = (run host.uncancelled paths).error? := by
  have hopen : (scan (host.cancelledAfter n) paths).deadline.passed = false := by
    rw [← Bool.not_eq_true, passed_scan_cancelledAfter]
    omega
  have hrun := run_of_not_passed hopen
  rw [reports_cancelledAfter, List.take_of_length_le (by omega)] at hrun
  exact ⟨hrun.1.trans (run_uncancelled host paths).1.symm, hrun.2.trans (run_uncancelled host paths).2.symm⟩

end FrontendAudit.Audit
