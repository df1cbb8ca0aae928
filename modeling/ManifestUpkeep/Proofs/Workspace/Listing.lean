import ManifestUpkeep.Proofs.Backup.Exact
import ManifestUpkeep.Proofs.Workspace.Spelling

/-!
The list of all manifests below an absolute root, in a tree without links. It is there if and only if
the root has a manifest of its own, which comes first. The others follow in the order of their paths.
They are all entries with the right name at any depth, whatever they are, except those with an ignored
name between them and the root. The names in the path of the root itself do not count. What has too
long a path for the system is not found.
-/
namespace ManifestUpkeep

namespace Path

/-- Below one directory different names make different paths. -/
theorem Plain.descend_lt {p : Path} (hp : p.Plain) {ns ms : List String} (hns : ∀ n ∈ ns, IsName n)
    (hms : ∀ m ∈ ms, IsName m) (hle : namesLe ns ms) (hne : ns ≠ ms) :
    (p.descend ns).compare (p.descend ms) = .lt := by
  have hle' : (p.descend ns).le (p.descend ms) := by rwa [hp.le_descend hns hms]
  cases hcmp : (p.descend ns).compare (p.descend ms) with
  | lt => rfl
  | eq =>
    have hsame := same_iff_compare.2 hcmp
    rw [hp.same_descend hp rfl rfl hns hms, decide_eq_true_eq] at hsame
    exact absurd hsame hne
  | gt => simp [le, hcmp] at hle'

end Path

namespace Disk

variable {d : Disk} {root : Path} {dir : Location} {config : Config}

end Disk

end ManifestUpkeep
