import ManifestUpkeep.Proofs.Backup.Restore
import ManifestUpkeep.Proofs.FileTree.Detours

/-!
What a restore does in a tree without links, down to the single file. It settles beforehand which
backup goes over which manifest: one for each directory that holds backups, the least or the greatest
by stamp and path, in the order of the manifests. It then carries this out from the front, and stops
at the first manifest whose backup cannot be read.
-/
namespace ManifestUpkeep
open Calendar

/-! ### The order of paths -/

instance : Std.LawfulEqCmp Path.Component.compare where
  eq_of_compare {a b} h := by
    obtain ⟨hrank, hname⟩ := Ordering.then_eq_eq.1 h
    have hrank := Std.LawfulEqOrd.eq_of_compare hrank
    have hname := Std.LawfulEqOrd.eq_of_compare hname
    cases a <;> cases b <;> simp_all [Path.Component.rank, Path.Component.name]

/-- The order of paths tells only the same paths not apart. -/
theorem Path.same_iff_compare {p q : Path} : p.same q ↔ p.compare q = .eq := by
  rw [same, decide_eq_true_eq, compare, Std.LawfulEqCmp.compare_eq_iff_eq]

theorem pairwise_eraseDupsBy {α : Type} {r : α → α → Bool} (l : List α) :
    (l.eraseDupsBy r).Pairwise fun a b => r b a = false := by
  match l with
  | [] => simp
  | a :: rest =>
    rw [List.eraseDupsBy_cons, List.pairwise_cons]
    refine ⟨fun b hb => ?_, pairwise_eraseDupsBy _⟩
    simpa using (List.mem_filter.1 (subset_of_eraseDupsBy _ hb)).2
termination_by l.length
decreasing_by
  have := List.length_filter_le (fun b => decide (r b a = false)) rest
  simp only [List.length_cons]
  omega

theorem Path.le_trans (p q r : Path) (hpq : p.le q) (hqr : q.le r) : p.le r := by
  rw [le] at hpq hqr ⊢
  exact Std.TransCmp.isLE_trans hpq hqr

theorem Path.le_total (p q : Path) : (p.le q || q.le p) = true := by
  have hswap : q.compare p = (p.compare q).swap := Std.OrientedCmp.eq_swap
  rw [le, le, hswap]
  cases p.compare q <;> rfl

/-- Each manifest that has backups is listed once, in the order of the paths. -/
theorem manifestsOf_ascending (found : List FoundBackup) :
    (manifestsOf found).Pairwise fun p q => p.compare q = .lt := by
  have hle : (manifestsOf found).Pairwise fun p q => p.le q :=
    List.pairwise_mergeSort Path.le_trans Path.le_total _
  have hapart : (manifestsOf found).Pairwise fun p q => q.same p = false := by
    rw [manifestsOf, (List.mergeSort_perm _ _).pairwise_iff]
    · exact pairwise_eraseDupsBy _
    · intro p q h
      rw [Path.same] at h ⊢
      simpa [eq_comm] using h
  refine (hle.and hapart).imp fun {p q} h => ?_
  cases hcmp : p.compare q with
  | lt => rfl
  | eq =>
    have heq : q.compare p = .eq := Std.OrientedCmp.eq_symm hcmp
    rw [Path.same_iff_compare.2 heq] at h
    cases h.2
  | gt =>
    have hle := h.1
    rw [Path.le, hcmp] at hle
    cases hle

namespace Disk

variable {d e : Disk} {root base : Path} {config : Config} {here : Location} {age : BackupAge}
  {ns : List String} {r : SavedFile}

/-- The restore of the manifest in a directory, to which the given names lead from the start of the
search: it takes the backup in this directory that comes before all others there. The manifest stands
beside it, and is found there unless its path is too long. -/
structure Chooses (d : Disk) (config : Config) (base : Path) (here : Location) (age : BackupAge)
    (ns : List String) (r : SavedFile) : Prop where
  backup : ∃ name s, d.HoldsBackup config base here ns name s ∧
    r.backup = (base.descend ns).child name ∧
    (∀ l, d.locate true r.backup = .ok l → l = name :: (ns.reverse ++ here)) ∧
    ∀ other t, d.HoldsBackup config base here ns other t → other ≠ name →
      age.Before (.at_ base ns name s) (.at_ base ns other t)
  file : r.file.same ((base.descend ns).child manifestName)
  beside : r.file = r.backup.withFileName manifestName
  located : ∀ l, d.locate true r.file = .ok l ↔
    refusal? r.file = none ∧ l = manifestName :: (ns.reverse ++ here)

/-- What a restore below a root settles beforehand: the manifests in the order of their paths, one for
each directory below the root that holds backups. Directories whose paths are too long are left out. -/
structure Plans (d : Disk) (root : Path) (config : Config) (age : BackupAge)
    (plan : List SavedFile) : Prop where
  starts : ∀ here, d.locate true root = .ok here → d.tree.get? here = some .directory →
    ∃ base, d.SearchesFrom root base here
  sound : ∀ r ∈ plan, ∃ base here ns, d.SearchesFrom root base here ∧
    d.Chooses config base here age ns r
  complete : ∀ base here ns name s, d.SearchesFrom root base here →
    d.HoldsBackup config base here ns name s → ∃ r ∈ plan, d.Chooses config base here age ns r
  readable : ∀ base here ns, d.SearchesFrom root base here → (∀ n ∈ ns, n.utf8ByteSize ≤ nameLimit) →
    d.tree.get? (ns.reverse ++ here) = some .directory →
    (d.isDirectory (base.descend ns) ↔ refusal? (base.descend ns) = none)
  ascending : plan.Pairwise fun r s => r.file.compare s.file = .lt

/-- The second disk is the first one on which each of the manifests that is a file holds its whole
backup. -/
structure Holds (d e : Disk) (done : List SavedFile) : Prop where
  cwd : e.cwd = d.cwd
  copied : ∀ r ∈ done, ∀ l, d.locate true r.file = .ok l → d.FileAt l →
    ∃ k content x, d.locate true r.backup = .ok k ∧ d.tree.get? k = some (.file content x) ∧
      e.tree.get? l = some (.file content x)
  kept : ∀ l, (∀ r ∈ done, d.locate true r.file = .ok l → ¬ d.FileAt l) →
    e.tree.get? l = d.tree.get? l

/-- The report on a plan that has been carried out. -/
def reportOn (d : Disk) (plan : List SavedFile) : RestoreReport where
  restored := plan.filter (d.isFile ·.file)
  missing := (plan.filter (!d.isFile ·.file)).map (·.backup)
  dryRun := false

/-- A restore has gone through the plan from the front. Either it is through and reports which
manifests it has restored and which are missing, or it has stopped at a manifest whose backup is no
file. It warns of the directories that it could not search and of the missing manifests. -/
def CarriesOut (d : Disk) (root : Path) (plan : List SavedFile) (run : Outcome RestoreReport) : Prop :=
  ∃ done rest, plan = done ++ rest ∧ d.Holds run.disk done ∧
    run.warnings = d.searchWarnings looksLikeBackup root ++
      (d.reportOn done).missing.map .manifestMissing ∧
    match rest with
    | [] => run.result = .ok (d.reportOn plan)
    | r :: _ => d.isFile r.file ∧ d.isFile r.backup = false ∧
        ∃ fault, run.result = .error (.io r.file fault)

/-! ### The plan -/

/-- The components of an entry below a path are those of the path, the names on the way and its own
name. -/
theorem components_child_descend (hp : base.Plain) (hns : ∀ n ∈ ns, IsName n) {name : String}
    (hname : IsName name) : ((base.descend ns).child name).components =
      base.components ++ (ns.map .normal ++ [.normal name]) := by
  rw [← Path.descend_concat, hp.components_descend, List.map_append, List.map_singleton]
  intro n hn
  rcases List.mem_append.1 hn with hn | hn
  · exact hns n hn
  · exact List.mem_singleton.1 hn ▸ hname

/-- The names of the directory of an entry lead from the start of a search to the entry only. -/
theorem SearchesFrom.located_child (hs : d.SearchesFrom root base here) (hd : d.tree.LinkFree)
    {q : Path} (hq : q.isAbsolute) (hns : ∀ n ∈ ns, IsName n) {name : String} (hname : IsName name)
    (hnames : ∀ dir, d.Leads q.names dir ↔ d.Leads (root.names ++ ns) dir) {l : Location}
    (hl : d.locate true (q.child name) = .ok l) : l = name :: (ns.reverse ++ here) := by
  obtain ⟨-, -, dir, hdir, rfl⟩ := (locate_child_eq_ok_iff hd hq hname).1 hl
  obtain ⟨start, hstart, rfl⟩ := leads_append_names hd hns ((hnames dir).1 hdir)
  rw [hs.leads.unique hstart]

/-- What is restored in a directory is chosen there. -/
theorem chooses_of_mem (hd : d.tree.LinkFree) (ht : d.tree.NamesProper) (hroot : root.isAbsolute)
    (hs : d.SearchesFrom root base here) {other : String} {t : Stamp}
    (h' : d.HoldsBackup config base here ns other t)
    (hfile : r.file = (FoundBackup.at_ base ns other t).manifest)
    (hr : r ∈ age.choose (findBackups d root config)) : d.Chooses config base here age ns r := by
  obtain ⟨manifest, -, heq⟩ := List.mem_filterMap.1 hr
  obtain ⟨backup, hbackup, rfl⟩ := Option.map_eq_some_iff.1 heq
  subst hfile
  obtain ⟨f, hf, hsame, rfl, hfirst⟩ := first_of_chooseBackup hbackup
  obtain ⟨ms, name, s, h, rfl⟩ := (mem_findBackups_iff hd ht hroot hs).1 hf
  cases (same_manifest_at_iff ht hs h h').1 hsame
  obtain ⟨hns, hname⟩ := isName_of_present ht h.present
  obtain ⟨-, hother⟩ := isName_of_present ht h'.present
  have hmanifest : IsName manifestName := by decide
  have hplain := Path.plain_of_isAbsolute hs.absolute
  obtain ⟨habs, hnames⟩ := Path.descend_spec hs.absolute hns
  rw [hs.names] at hnames
  obtain ⟨q, hq, hchild⟩ := Path.withFileName_child habs
  have hqnames (dir : Location) : d.Leads q.names dir ↔ d.Leads (root.names ++ ns) dir := by
    rw [← leads_of_trims hd hq, hnames]
  refine ⟨⟨name, s, h, rfl, ?_, ?_⟩, ?_, ?_, fun l => ?_⟩
  · exact fun l hl => hs.located_child hd habs hns hname (fun dir => by rw [hnames]) hl
  · intro other' t' h'' hne
    have hfound := (mem_findBackups_iff hd ht hroot hs).2 ⟨ns, other', t', h'', rfl⟩
    refine (hfirst _ hfound ((same_manifest_at_iff ht hs h'' h').2 rfl)).resolve_left fun heq => ?_
    -- Backups in one directory have different paths.
    have hpath := (Ordering.then_eq_eq.1 heq).2
    have hother' := (isName_of_present ht h''.present).2
    rw [FoundBackup.at_, FoundBackup.at_, ← Path.same_iff_compare, Path.same, decide_eq_true_eq,
      components_child_descend hplain hns hname, components_child_descend hplain hns hother'] at hpath
    have hlast := List.append_cancel_left (List.append_cancel_left hpath)
    exact hne (Path.Component.normal.inj (List.cons.inj hlast).1).symm
  · rw [FoundBackup.at_, Path.same, decide_eq_true_eq,
      Path.components_withFileName_child habs hother hmanifest, hplain.components_descend hns,
      components_child_descend hplain hns hmanifest, List.append_assoc]
  · rw [FoundBackup.at_, FoundBackup.at_, hchild hother, hchild hname]
  · rw [FoundBackup.at_, hchild hother]
    constructor
    · intro hl
      exact ⟨((locate_eq_ok_iff hd).1 hl).1, hs.located_child hd hq.absolute hns hmanifest hqnames hl⟩
    · rintro ⟨hrefusal, rfl⟩
      exact (locate_child_eq_ok_iff hd hq.absolute hmanifest).2
        ⟨hrefusal, by decide, _, (hqnames _).2 (hs.leads_descend hd hns h.readable), rfl⟩

/-- What is restored is chosen in one of the directories that hold backups. -/
theorem exists_chooses (hd : d.tree.LinkFree) (ht : d.tree.NamesProper) (hroot : root.isAbsolute)
    (hr : r ∈ age.choose (findBackups d root config)) :
    ∃ base here ns, d.SearchesFrom root base here ∧ d.Chooses config base here age ns r := by
  obtain ⟨manifest, hmanifest, heq⟩ := List.mem_filterMap.1 hr
  obtain ⟨g, hg, rfl⟩ := exists_of_mem_manifestsOf hmanifest
  obtain ⟨p, hp, -⟩ := List.mem_filterMap.1 hg
  obtain ⟨base, here, hs⟩ := searchesFrom_of_mem_search hd hroot hp
  obtain ⟨ns, other, t, h', rfl⟩ := (mem_findBackups_iff hd ht hroot hs).1 hg
  obtain ⟨backup, -, rfl⟩ := Option.map_eq_some_iff.1 heq
  exact ⟨base, here, ns, hs, chooses_of_mem hd ht hroot hs h' rfl hr⟩

/-- A search starts below every path that leads to a directory. -/
theorem exists_searchesFrom_of_locate (hd : d.tree.LinkFree) (hroot : root.isAbsolute)
    (hl : d.locate true root = .ok here) (hdir : d.tree.get? here = some .directory) :
    ∃ base, d.SearchesFrom root base here := by
  have hrefusal := ((locate_eq_ok_iff hd).1 hl).1
  have hreaches := (locate_iff_reaches hd hrefusal hdir).1 hl
  obtain ⟨base, hfound, hbase⟩ :=
    exists_searchBase? hd (Path.plain_of_isAbsolute hroot) hrefusal hreaches
  exact ⟨base, hbase.searchesFrom hd hroot hdir hfound⟩

/-- The choices of a restore are a plan. -/
theorem plans_choose (hd : d.tree.LinkFree) (ht : d.tree.NamesProper) (hroot : root.isAbsolute)
    (config : Config) (age : BackupAge) :
    d.Plans root config age (age.choose (findBackups d root config)) where
  starts _ := exists_searchesFrom_of_locate hd hroot
  sound _ := exists_chooses hd ht hroot
  complete base here ns name s hs h := by
    obtain ⟨r, hr, other, t, h', hfile⟩ := exists_mem_choose hd ht hroot hs age h
    exact ⟨r, hr, chooses_of_mem hd ht hroot hs h' hfile hr⟩
  readable base here ns hs hsize hdir := by
    have hns : ∀ n ∈ ns, IsName n := fun n hn =>
      FileTree.isName_of_isSome ht (by rw [hdir]; rfl) n (by simp [hn])
    exact isDirectory_descend_iff hd hs.absolute (hs.names ▸ hs.leads) hns hsize hdir
  ascending := by
    refine List.pairwise_filterMap.2 ((manifestsOf_ascending _).imp fun {p q} h => ?_)
    intro r hr s hs
    obtain ⟨-, -, rfl⟩ := Option.map_eq_some_iff.1 hr
    obtain ⟨-, -, rfl⟩ := Option.map_eq_some_iff.1 hs
    exact h

namespace Plans

variable {plan : List SavedFile}

/-- All manifests of a plan are found below the same start of the search. -/
theorem exists_start (h : d.Plans root config age plan) (hne : plan ≠ []) : ∃ base here,
    ∀ r ∈ plan, ∃ ns, d.Chooses config base here age ns r := by
  obtain ⟨first, hfirst⟩ := List.exists_mem_of_ne_nil plan hne
  obtain ⟨base, here, -, hs, -⟩ := h.sound first hfirst
  refine ⟨base, here, fun r hr => ?_⟩
  obtain ⟨base', here', ns, hs', hchooses⟩ := h.sound r hr
  cases Option.some.inj (hs.found.symm.trans hs'.found)
  cases Except.ok.inj (hs.located.symm.trans hs'.located)
  exact ⟨ns, hchooses⟩

/-- The manifests of a plan stand in different places. -/
theorem apart (h : d.Plans root config age plan) : plan.Pairwise fun r s => ∀ l,
    d.locate true r.file = .ok l → d.locate true s.file ≠ .ok l := by
  cases hplan : plan with
  | nil => exact .nil
  | cons first rest =>
    obtain ⟨base, here, hstart⟩ := h.exists_start (by simp [hplan])
    rw [← hplan]
    refine h.ascending.imp_of_mem fun {r s} hr hs hlt l hl hl' => ?_
    obtain ⟨ns, hr⟩ := hstart r hr
    obtain ⟨ms, hs⟩ := hstart s hs
    obtain ⟨-, rfl⟩ := names_eq_of_cons
      (((hr.located l).1 hl).2.symm.trans ((hs.located l).1 hl').2)
    have hsame : r.file.same s.file := by
      have h₁ := hr.file
      have h₂ := hs.file
      rw [Path.same, decide_eq_true_eq] at h₁ h₂ ⊢
      exact h₁.trans h₂.symm
    rw [Path.same_iff_compare.1 hsame] at hlt
    cases hlt

/-- No manifest of a plan stands in the place of a backup. -/
theorem notBackup (h : d.Plans root config age plan) {s : SavedFile} (hr : r ∈ plan) (hs : s ∈ plan)
    {l : Location} (hl : d.locate true r.backup = .ok l) : d.locate true s.file ≠ .ok l := by
  intro hl'
  obtain ⟨base, here, hstart⟩ := h.exists_start (List.ne_nil_of_mem hr)
  obtain ⟨ns, hr⟩ := hstart r hr
  obtain ⟨ms, hs⟩ := hstart s hs
  obtain ⟨name, stamp, hholds, -, hplace, -⟩ := hr.backup
  have hname := (names_eq_of_cons ((hplace l hl).symm.trans ((hs.located l).1 hl').2)).1
  obtain ⟨-, suffix, hne, happend⟩ := of_ofName?_manifestName hholds.stamp
  rw [happend, ← String.toList_inj, String.toList_append] at hname
  exact hne (by simpa using hname)

end Plans

/-! ### Carrying the plan out -/

namespace Holds

variable {f : Disk} {done : List SavedFile}

theorem refl (d : Disk) : d.Holds d [] where
  cwd := rfl
  copied := by simp
  kept _ _ := rfl

theorem kept_or_copied (h : d.Holds e done) (l : Location) :
    e.tree.get? l = d.tree.get? l ∨ ∃ r ∈ done, d.locate true r.file = .ok l ∧ d.FileAt l := by
  by_cases hl : ∃ r ∈ done, d.locate true r.file = .ok l ∧ d.FileAt l
  · exact .inr hl
  · exact .inl (h.kept l fun r hr hlocate hat => hl ⟨r, hr, hlocate, hat⟩)

/-- What is restored has a backup that can be read. -/
theorem isFile_backup (h : d.Holds e done) (hr : r ∈ done) (hfile : d.isFile r.file) :
    d.isFile r.backup := by
  obtain ⟨l, hl, hat⟩ := isFile_iff.1 hfile
  obtain ⟨k, content, x, hk, hcontent, -⟩ := h.copied r hr l hl hat
  exact isFile_iff.2 ⟨k, hk, content, x, hcontent⟩

/-- What is restored stays a file. -/
theorem sameShape (h : d.Holds e done) (hd : d.tree.LinkFree) : d.SameShape e := by
  have hfile {l : Location} {r : SavedFile} (hr : r ∈ done) (hl : d.locate true r.file = .ok l)
      (hat : d.FileAt l) : e.FileAt l := by
    obtain ⟨k, content, x, -, -, hafter⟩ := h.copied r hr l hl hat
    exact ⟨content, x, hafter⟩
  refine ⟨h.cwd, hd, fun l target hlink => ?_, fun l => ?_, fun l => ?_⟩
  · rcases h.kept_or_copied l with hsame | ⟨r, hr, hl, hat⟩
    · exact hd l target (hsame ▸ hlink)
    · obtain ⟨content, x, hafter⟩ := hfile hr hl hat
      cases hlink.symm.trans hafter
  · rcases h.kept_or_copied l with hsame | ⟨r, hr, hl, hat⟩
    · rw [hsame]
    · obtain ⟨content, x, hafter⟩ := hfile hr hl hat
      obtain ⟨old, y, hold⟩ := hat
      rw [hold, hafter]
      simp
  · rcases h.kept_or_copied l with hsame | ⟨r, hr, hl, hat⟩
    · rw [FileAt, FileAt, hsame]
    · exact iff_of_true hat (hfile hr hl hat)

/-- A manifest that is no file is left alone. -/
theorem skip (h : d.Holds e done) (hr : d.isFile r.file = false) : d.Holds e (done ++ [r]) where
  cwd := h.cwd
  copied s hs l hl hat := by
    rcases List.mem_append.1 hs with hs | hs
    · exact h.copied s hs l hl hat
    · rw [List.mem_singleton.1 hs] at hl
      rw [isFile_iff.2 ⟨l, hl, hat⟩] at hr
      cases hr
  kept l hl := h.kept l fun s hs => hl s (List.mem_append_left _ hs)

/-- One more manifest takes over its backup. -/
theorem put (h : d.Holds e done) {k l : Location} {content : ByteArray} {x : Bool}
    (hl : d.locate true r.file = .ok l) (hat : d.FileAt l) (hk : d.locate true r.backup = .ok k)
    (hcontent : d.tree.get? k = some (.file content x)) (hputs : e.Puts f l content x)
    (hapart : ∀ s ∈ done, d.locate true s.file ≠ .ok l) : d.Holds f (done ++ [r]) where
  cwd := hputs.cwd.trans h.cwd
  copied s hs m hm hmat := by
    rcases List.mem_append.1 hs with hs | hs
    · have hne : m ≠ l := fun heq => hapart s hs (heq ▸ hm)
      rw [hputs.others m hne]
      exact h.copied s hs m hm hmat
    · cases List.mem_singleton.1 hs
      cases hl.symm.trans hm
      exact ⟨k, content, x, hk, hcontent, hputs.node⟩
  kept m hm := by
    have hne : m ≠ l := by
      rintro rfl
      exact hm r (by simp) hl hat
    rw [hputs.others m hne]
    exact h.kept m fun s hs => hm s (List.mem_append_left _ hs)

end Holds

theorem reportOn_concat_file {done : List SavedFile} (h : d.isFile r.file) :
    d.reportOn (done ++ [r]) =
      { d.reportOn done with restored := (d.reportOn done).restored ++ [r] } := by
  simp [reportOn, List.filter_append, h]

theorem reportOn_concat_missing {done : List SavedFile} (h : d.isFile r.file = false) :
    d.reportOn (done ++ [r]) =
      { d.reportOn done with missing := (d.reportOn done).missing ++ [r.backup] } := by
  simp [reportOn, List.filter_append, h]

/-- From any point on, the rest of a plan is carried out if its manifests stand apart and none of them
stands in the place of a backup. -/
theorem restoreEach_carriesOut {done rest : List SavedFile} (hshape : d.SameShape e)
    (hdone : d.Holds e done)
    (hapart : (done ++ rest).Pairwise fun r s => ∀ l, d.locate true r.file = .ok l →
      d.locate true s.file ≠ .ok l)
    (hbackups : ∀ r ∈ done ++ rest, ∀ s ∈ done ++ rest, ∀ l, d.locate true r.backup = .ok l →
      d.locate true s.file ≠ .ok l) {warnings : List Warning}
    (hwarnings : warnings = d.searchWarnings looksLikeBackup root ++
      (d.reportOn done).missing.map .manifestMissing) :
    d.CarriesOut root (done ++ rest)
      { restoreEach false rest e (d.reportOn done) with
        warnings := warnings ++ (restoreEach false rest e (d.reportOn done)).warnings } := by
  induction rest generalizing e done warnings with
  | nil =>
    refine ⟨done, [], rfl, hdone, ?_, ?_⟩
    · rw [hwarnings]
      exact List.append_nil _
    · rw [List.append_nil]
      rfl
  | cons r rest ih =>
    have hassoc : done ++ r :: rest = done ++ [r] ++ rest := by simp
    rw [restoreEach, hshape.isFile_eq]
    cases hfile : d.isFile r.file with
    | false =>
      have hmissing : warnings ++ [.manifestMissing r.backup] =
          d.searchWarnings looksLikeBackup root ++
            (d.reportOn (done ++ [r])).missing.map .manifestMissing := by
        rw [reportOn_concat_missing hfile, hwarnings, List.map_append, List.map_singleton,
          List.append_assoc]
      have hnext := ih hshape (hdone.skip hfile) (hassoc ▸ hapart) (hassoc ▸ hbackups) hmissing
      rw [← hassoc, reportOn_concat_missing hfile] at hnext
      simp only [Bool.not_false, if_true]
      simpa using hnext
    | true =>
      simp only [Bool.not_true, Bool.false_eq_true, if_false]
      cases hbackup : d.isFile r.backup with
      | false =>
        obtain ⟨fault, hcopy⟩ : ∃ fault, e.copy r.backup r.file = .error fault :=
          copy_of_not_isFile ((hshape.isFile_eq r.backup).trans hbackup)
        rw [hcopy]
        exact ⟨done, r :: rest, rfl, hdone, by rw [hwarnings]; exact List.append_nil _, hfile, hbackup,
          fault, rfl⟩
      | true =>
        obtain ⟨l, hl, hat⟩ := isFile_iff.1 hfile
        obtain ⟨k, hk, content, x, hcontent⟩ := isFile_iff.1 hbackup
        have hkept : e.tree.get? k = some (.file content x) := by
          rw [hdone.kept k fun s hs hs' _ => hbackups r (by simp) s (by simp [hs]) k hk hs']
          exact hcontent
        obtain ⟨old, y, hold⟩ := (hshape.files l).1 hat
        have hne : k ≠ l := by
          rintro rfl
          exact hbackups r (by simp) r (by simp) k hk hl
        obtain ⟨f, hcopy, hputs⟩ := exists_copy (hshape.locate.1 hk) hkept (hshape.locate.1 hl) hold hne
        have hearlier : ∀ s ∈ done, d.locate true s.file ≠ .ok l := fun s hs hs' =>
          (List.pairwise_append.1 hapart).2.2 s hs r (by simp) l hs' hl
        have hmissing : warnings = d.searchWarnings looksLikeBackup root ++
            (d.reportOn (done ++ [r])).missing.map .manifestMissing := by
          rw [reportOn_concat_file hfile, hwarnings]
        have hnext := ih (hshape.puts hputs ⟨old, y, hold⟩)
          (hdone.put hl hat hk hcontent hputs hearlier) (hassoc ▸ hapart) (hassoc ▸ hbackups) hmissing
        rw [← hassoc, reportOn_concat_file hfile] at hnext
        rw [hcopy]
        exact hnext

/-- A restore carries its own choices out. -/
theorem restoreManifests_carriesOut (hd : d.tree.LinkFree) (ht : d.tree.NamesProper)
    (hroot : root.isAbsolute) (config : Config) (age : BackupAge) :
    d.CarriesOut root (age.choose (findBackups d root config))
      (restoreManifests d root config age false) := by
  have hplan := plans_choose hd ht hroot config age
  rw [← List.nil_append (age.choose _)]
  refine restoreEach_carriesOut (.refl hd) (.refl d) hplan.apart
    (fun r hr s hs l => hplan.notBackup hr hs) ?_
  exact (List.append_nil _).symm

namespace CarriesOut

variable {plan : List SavedFile} {run : Outcome RestoreReport}

/-- A restore is through if all backups that are to be copied can be read. -/
theorem ends (h : d.CarriesOut root plan run)
    (hfiles : ∀ r ∈ plan, d.isFile r.file → d.isFile r.backup) :
    run.result = .ok (d.reportOn plan) ∧ d.Holds run.disk plan := by
  obtain ⟨done, rest, rfl, hholds, -, hrest⟩ := h
  cases rest with
  | nil => exact ⟨hrest, by rwa [List.append_nil]⟩
  | cons r rest =>
    obtain ⟨hfile, hbackup, -⟩ := hrest
    rw [hfiles r (by simp) hfile] at hbackup
    cases hbackup

theorem sameShape (h : d.CarriesOut root plan run) (hd : d.tree.LinkFree) : d.SameShape run.disk := by
  obtain ⟨done, rest, -, hholds, -⟩ := h
  exact hholds.sameShape hd

/-- A restore comes to a manifest if it can copy its backup and those of the manifests before it. -/
theorem reaches (h : d.CarriesOut root plan run)
    (hplan : plan.Pairwise fun r s => r.file.compare s.file = .lt) (hr : r ∈ plan)
    (hfiles : ∀ s ∈ plan, s = r ∨ s.file.compare r.file = .lt → d.isFile s.file → d.isFile s.backup) :
    ∃ done, r ∈ done ∧ done ⊆ plan ∧ d.Holds run.disk done := by
  obtain ⟨done, rest, rfl, hholds, -, hrest⟩ := h
  refine ⟨done, ?_, List.subset_append_left .., hholds⟩
  cases rest with
  | nil => simpa using hr
  | cons stop rest =>
    obtain ⟨hfile, hbackup, -⟩ := hrest
    refine (List.mem_append.1 hr).resolve_right fun hlater => ?_
    have hbefore : stop = r ∨ stop.file.compare r.file = .lt :=
      (List.mem_cons.1 hlater).imp Eq.symm fun hmem =>
        List.rel_of_pairwise_cons (List.pairwise_append.1 hplan).2.1 hmem
    rw [hfiles stop (by simp) hbefore hfile] at hbackup
    cases hbackup

/-- What is restored comes before every manifest whose backup cannot be read. -/
theorem before_of_unread (h : d.CarriesOut root plan run)
    (hplan : plan.Pairwise fun r s => r.file.compare s.file = .lt) :
    ∃ done ⊆ plan, d.Holds run.disk done ∧
      ∀ r ∈ plan, d.isFile r.file → d.isFile r.backup = false →
        run.result.isOk = false ∧ ∀ s ∈ done, s.file.compare r.file = .lt := by
  obtain ⟨done, rest, rfl, hholds, -, hrest⟩ := h
  refine ⟨done, List.subset_append_left .., hholds, fun r hr hfile hbackup => ?_⟩
  have hlater : r ∈ rest := (List.mem_append.1 hr).resolve_left fun hdone => by
    rw [hholds.isFile_backup hdone hfile] at hbackup
    cases hbackup
  refine ⟨?_, fun s hs => (List.pairwise_append.1 hplan).2.2 s hs r hlater⟩
  cases rest with
  | nil => cases hlater
  | cons stop rest =>
    obtain ⟨-, -, fault, hresult⟩ := hrest
    rw [hresult]
    rfl

end CarriesOut

/-- Where a backup can be read, its manifest has a path that is short enough. -/
theorem Chooses.locate_file (h : d.Chooses config base here age ns r) (hd : d.tree.LinkFree)
    (ht : d.tree.NamesProper) (hs : d.SearchesFrom root base here) (hfile : d.isFile r.backup) :
    d.locate true r.file = .ok (manifestName :: (ns.reverse ++ here)) := by
  obtain ⟨name, s, hholds, hbackup, hplace, -⟩ := h.backup
  obtain ⟨hns, hname⟩ := isName_of_present ht hholds.present
  obtain ⟨l, hl, -⟩ := isFile_iff.1 hfile
  obtain rfl := hplace l hl
  obtain ⟨-, suffix, -, rfl⟩ := of_ofName?_manifestName hholds.stamp
  rw [hbackup] at hl
  rw [h.beside, hbackup]
  exact locate_withFileName_of_append hd (Path.descend_spec hs.absolute hns).1 hname (by decide) hl

/-- At the root itself the manifest is found, if its path below the root is short enough. -/
theorem Chooses.isFile_of_root (h : d.Chooses config base here age [] r) (hd : d.tree.LinkFree)
    (ht : d.tree.NamesProper) (hs : d.SearchesFrom root base here) (hroot : root.isAbsolute)
    (hfolder : root.folder = Path.opening root.names) {l : Location}
    (hl : d.locate true (root.child manifestName) = .ok l) (hfile : d.FileAt (manifestName :: here)) :
    d.isFile r.file := by
  have hmanifest : IsName manifestName := by decide
  obtain ⟨name, s, hholds, hbackup, -⟩ := h.backup
  obtain ⟨-, hname⟩ := isName_of_present ht hholds.present
  refine isFile_iff.2 ⟨_, (h.located _).2 ⟨?_, rfl⟩, hfile⟩
  obtain ⟨q, hq, hchild⟩ := Path.withFileName_child hs.absolute
  obtain ⟨tail, htail⟩ := hq.folder
  rw [hs.folder.trans hfolder.symm] at htail
  have hrefusal := ((locate_child_eq_ok_iff hd hroot hmanifest).1 hl).1
  rw [h.beside, hbackup]
  refine (congrArg refusal? (hchild hname manifestName)).trans ?_
  refine refusal?_child_of_le hroot hq.absolute hmanifest hmanifest ?_ ?_ hrefusal
  · rw [htail]
    simp only [String.toList_append, List.append_assoc]
    exact List.append_subset.2 ⟨List.subset_append_left .., by simp⟩
  · rw [htail]
    simp only [String.utf8ByteSize_append]
    omega

end Disk

/-! ### The restore as a whole -/

section OutlyingDirectory

end OutlyingDirectory

end ManifestUpkeep
