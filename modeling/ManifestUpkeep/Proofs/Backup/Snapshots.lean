import ManifestUpkeep.Proofs.Backup.Candidates
import ManifestUpkeep.Proofs.Backup.Exact
import ManifestUpkeep.Proofs.FileTree.Detours

/-!
The history of one manifest that is changed and backed up again and again. Its backups are never
written twice, and the stamps of their names increase from backup to backup, so that the oldest and
the latest backup hold what the manifest held when the first and the last one were made.
-/
namespace ManifestUpkeep
open Calendar

/-- What happens to a manifest from a disk on: its content is replaced, or it is backed up. The
instants and the contents of the backups are kept, the first backup first. -/
inductive Snapshots (p : Path) (start : Disk) : List (Int × ByteArray) → Disk → Prop where
  | start : Snapshots p start [] start
  | change {taken : List (Int × ByteArray)} {d e : Disk} {content : ByteArray} :
      Snapshots p start taken d → d.write p content = .ok e → Snapshots p start taken e
  | backup {taken : List (Int × ByteArray)} {d : Disk} {now : Int} {content : ByteArray}
      {name : Path} : Snapshots p start taken d → d.readBytes p = .ok content →
      (d.backUp now p).result = .ok name →
      Snapshots p start (taken ++ [(now, content)]) (d.backUp now p).disk

/-- A manifest is backed up once and then changed. -/
theorem Snapshots.backup_change {p name : Path} {start d e : Disk} {l : Location} {now : Int}
    {old new : ByteArray} {x : Bool} (hl : start.locate true p = .ok l)
    (hold : start.tree.get? l = some (.file old x))
    (hmade : start.backUp now p = { disk := d, result := .ok name }) (hwrite : d.write p new = .ok e) :
    Snapshots p start [(now, old)] e := by
  have hwritten : (start.backUp now p).disk.write p new = .ok e := by
    rw [hmade]
    exact hwrite
  exact .change (.backup .start (Disk.readBytes_of_file hl hold) (congrArg Outcome.result hmade)) hwritten

/-- Which of the backup names of an instant is used after backups at earlier instants: the plain one
for the first backup, then the timed ones, each at its turn. -/
def turn (earlier : List Int) (now : Int) : Nat :=
  match earlier with
  | [] => 0
  | _ :: timed => timed.count now + 1

/-- The name of the backup that is made after backups at earlier instants. -/
def snapshotName (earlier : List Int) (now : Int) : String :=
  manifestName ++ backupSuffix now (turn earlier now)

/-- The stamp of the backup that is made after backups at earlier instants. -/
def snapshotStamp (earlier : List Int) (now : Int) : Stamp :=
  match earlier with
  | [] => .plain
  | _ :: timed => .timed (Instant.compact now) (timed.count now)

/-- The instants of backups that have names which are read back: they do not decrease, they fall into
years of four digits, and there are not too many of them in one second. -/
structure Nameable (times : List Int) : Prop where
  sorted : times.Pairwise (· ≤ ·)
  years : ∀ t ∈ times, Instant.HasShortYear t
  counts : ∀ t, times.count t < 4294967296

namespace Nameable

theorem of_append {earlier later : List Int} (h : Nameable (earlier ++ later)) :
    Nameable earlier where
  sorted := (List.pairwise_append.1 h.sorted).1
  years t ht := h.years t (by simp [ht])
  counts t := by
    have := h.counts t
    rw [List.count_append] at this
    omega

theorem ofName?_snapshotName {earlier : List Int} {now : Int} (h : Nameable (earlier ++ [now])) :
    Stamp.ofName? manifestName (snapshotName earlier now) = some (snapshotStamp earlier now) := by
  cases earlier with
  | nil => exact ofName?_eq_plain_iff.2 (String.append_assoc ..).symm
  | cons first timed =>
    have hcount := h.counts now
    rw [List.cons_append, List.count_cons, List.count_append] at hcount
    rw [snapshotName, turn, backupSuffix, snapshotStamp,
      ← ofName?_timed (h.years now (by simp)) (by omega : timed.count now < 4294967296) manifestName]
    simp only [String.append_assoc]

/-- Later backups have greater stamps. -/
theorem snapshotStamp_lt {earlier between : List Int} {t u : Int}
    (h : Nameable (earlier ++ t :: between ++ [u])) :
    (snapshotStamp earlier t).compare (snapshotStamp (earlier ++ t :: between) u) = .lt := by
  cases earlier with
  | nil => rfl
  | cons first timed =>
    have hle : t ≤ u := by
      have hsorted := h.sorted
      rw [List.append_assoc, List.pairwise_append] at hsorted
      exact List.rel_of_pairwise_cons hsorted.2.1 (by simp)
    rw [snapshotStamp, List.cons_append, snapshotStamp]
    rcases Int.lt_or_eq_of_le hle with hlt | rfl
    · exact Stamp.compare_instant_lt (h.years t (by simp)) (h.years u (by simp)) hlt _ _
    · refine Stamp.compare_turn_lt _ ?_
      rw [List.count_append, List.count_cons_self]
      omega

/-- Later backups have other names. -/
theorem snapshotName_ne {earlier between : List Int} {t u : Int}
    (h : Nameable (earlier ++ t :: between ++ [u])) :
    snapshotName (earlier ++ t :: between) u ≠ snapshotName earlier t := by
  intro heq
  have hlater := h.ofName?_snapshotName
  have hearlier : Nameable (earlier ++ [t]) := by
    rw [List.append_assoc, List.cons_append, List.append_cons] at h
    exact h.of_append
  rw [heq, hearlier.ofName?_snapshotName, Option.some.injEq] at hlater
  have hlt := h.snapshotStamp_lt
  have hrefl (s : Stamp) : s.compare s = .eq := Std.ReflCmp.compare_self
  rw [hlater, hrefl] at hlt
  cases hlt

end Nameable

/-- Not too many backups at the same instant. -/
theorem nameable_replicate {t : Int} (ht : Instant.HasShortYear t) {n : Nat} (hn : n < 4294967296) :
    Nameable (List.replicate n t) where
  sorted := List.pairwise_replicate.2 (.inr (le_refl t))
  years _ h := List.eq_of_mem_replicate h ▸ ht
  counts _ := (List.count_le_length ..).trans_lt (by rwa [List.length_replicate])

/-- Every turn before the next one has been taken. -/
theorem exists_split_of_lt_count {l : List Int} {a : Int} {i : Nat} (h : i < l.count a) :
    ∃ before after, l = before ++ a :: after ∧ before.count a = i := by
  induction l generalizing i with
  | nil => cases h
  | cons b rest ih =>
    by_cases hb : b = a
    · subst hb
      rw [List.count_cons_self] at h
      cases i with
      | zero => exact ⟨[], rest, rfl, rfl⟩
      | succ i =>
        obtain ⟨before, after, rfl, hcount⟩ := ih (by omega : i < rest.count b)
        exact ⟨b :: before, after, rfl, by rw [List.count_cons_self, hcount]⟩
    · rw [List.count_cons_of_ne (by simpa using hb)] at h
      obtain ⟨before, after, rfl, hcount⟩ := ih h
      exact ⟨b :: before, after, rfl, by rw [List.count_cons_of_ne (by simpa using hb), hcount]⟩

/-- The disk after a history of one manifest in a directory. Every backup still holds what it was made
of, and apart from the backups and the manifest nothing has changed. -/
structure Keeps (p : Path) (start d : Disk) (dir : Location) (taken : List (Int × ByteArray)) :
    Prop where
  cwd : d.cwd = start.cwd
  linkFree : d.tree.LinkFree
  sameDirectories : start.tree.SameDirectories d.tree
  manifest : ∃ content x, d.tree.get? (manifestName :: dir) = some (.file content x)
  kept : ∀ earlier t later, taken = earlier ++ t :: later →
    d.tree.get? (snapshotName (earlier.map Prod.fst) t.1 :: dir) = some (.file t.2 false)
  located : ∀ earlier t later, taken = earlier ++ t :: later →
    ∃ k, start.locate true (p.withFileName (snapshotName (earlier.map Prod.fst) t.1)) = .ok k
  others : ∀ l, l ≠ manifestName :: dir → (∀ earlier t later, taken = earlier ++ t :: later →
    l ≠ snapshotName (earlier.map Prod.fst) t.1 :: dir) → d.tree.get? l = start.tree.get? l

theorem snapshotName_ne_manifestName (earlier : List Int) (now : Int) :
    snapshotName earlier now ≠ manifestName := by
  intro h
  have hsuffix : (backupSuffix now (turn earlier now)).toList = [] := by
    rw [snapshotName, ← String.toList_inj, String.toList_append] at h
    simpa using h
  cases hturn : turn earlier now <;> simp [hturn, backupSuffix, String.toList_append] at hsuffix

namespace Keeps

variable {p : Path} {start d e : Disk} {dir : Location} {taken : List (Int × ByteArray)}

/-- Splitting a list behind which something has been put. -/
theorem split_concat {P : List (Int × ByteArray) → Int × ByteArray → Prop} {last : Int × ByteArray}
    (hold : ∀ earlier t later, taken = earlier ++ t :: later → P earlier t) (hlast : P taken last) :
    ∀ earlier t later, taken ++ [last] = earlier ++ t :: later → P earlier t := by
  intro earlier t later htaken
  rcases List.eq_nil_or_concat later with rfl | ⟨front, last', rfl⟩
  · obtain ⟨rfl, heq⟩ := List.append_inj' htaken rfl
    cases heq
    exact hlast
  · rw [List.concat_eq_append, ← List.cons_append, ← List.append_assoc] at htaken
    exact hold earlier t front (List.append_inj' htaken rfl).1

/-- The name of the next backup is free. -/
theorem free (h : Keeps p start d dir taken)
    (hnone : ∀ name s, Stamp.ofName? manifestName name = some s → start.tree.get? (name :: dir) = none)
    {now : Int} (hnow : Nameable (taken.map Prod.fst ++ [now])) :
    d.tree.get? (snapshotName (taken.map Prod.fst) now :: dir) = none := by
  rw [h.others]
  · exact hnone _ _ hnow.ofName?_snapshotName
  · exact fun heq => snapshotName_ne_manifestName _ _ (List.cons.inj heq).1
  · rintro earlier t later rfl heq
    rw [List.map_append, List.map_cons] at hnow heq
    exact hnow.snapshotName_ne (List.cons.inj heq).1

/-- The names of the turns before the next one are taken. -/
theorem isSome_of_lt_turn (h : Keeps p start d dir taken) {now : Int} {i : Nat}
    (hi : i < turn (taken.map Prod.fst) now) :
    (d.tree.get? ((manifestName ++ backupSuffix now i) :: dir)).isSome := by
  cases taken with
  | nil => cases hi
  | cons first rest =>
    rw [List.map_cons, turn] at hi
    cases i with
    | zero =>
      have hplain := h.kept [] first rest rfl
      rw [List.map_nil, snapshotName, turn] at hplain
      rw [show backupSuffix now 0 = backupSuffix first.1 0 from rfl, hplain]
      rfl
    | succ i =>
      obtain ⟨before, after, hsplit, hcount⟩ :=
        exists_split_of_lt_count (by omega : i < (rest.map Prod.fst).count now)
      obtain ⟨earlier, later, rfl, rfl, hlater⟩ := List.map_eq_append_iff.1 hsplit
      obtain ⟨t, later, rfl, rfl, -⟩ := List.map_eq_cons_iff.1 hlater
      have hkept := h.kept (first :: earlier) t later rfl
      rw [List.map_cons, snapshotName, turn, hcount] at hkept
      rw [hkept]
      rfl

/-- The first free name is the one of the next turn. -/
theorem turn_eq {q : Path} (hq : q.isAbsolute) (h : Keeps (q.child manifestName) start d dir taken)
    (hnone : ∀ name s, Stamp.ofName? manifestName name = some s → start.tree.get? (name :: dir) = none)
    {now : Int} (hnow : Nameable (taken.map Prod.fst ++ [now])) {content : ByteArray} {j : Nat}
    {k : Location} (hl : d.locate true (q.child manifestName) = .ok (manifestName :: dir))
    (hmade : d.BackedUpAt e now (q.child manifestName) content j k) :
    j = turn (taken.map Prod.fst) now ∧ k = snapshotName (taken.map Prod.fst) now :: dir := by
  have hmanifest : IsName manifestName := by decide
  have htaken : ∀ i < j, (d.tree.get? ((manifestName ++ backupSuffix now i) :: dir)).isSome := by
    intro i hi
    obtain ⟨l, hlocate, hsome⟩ := hmade.taken i hi
    rwa [← Disk.location_of_backupName h.linkFree hq hmanifest hl hlocate]
  have hk := Disk.location_of_backupName h.linkFree hq hmanifest hl hmade.free.1
  have hfree := hmade.free.2
  rw [hk] at hfree
  have hnext := h.free hnone hnow
  rw [snapshotName] at hnext
  have hj : j = turn (taken.map Prod.fst) now := by
    refine Nat.le_antisymm (Nat.not_lt.1 fun hlt => ?_) (Nat.not_lt.1 fun hlt => ?_)
    · simpa [hnext] using htaken _ hlt
    · simpa [hfree] using h.isSome_of_lt_turn hlt
  exact ⟨hj, by rw [hk, hj, snapshotName]⟩

/-- A disk on which nothing has happened yet. -/
theorem refl (hd : start.tree.LinkFree) {content : ByteArray} {x : Bool}
    (hfile : start.tree.get? (manifestName :: dir) = some (.file content x)) :
    Keeps p start start dir [] where
  cwd := rfl
  linkFree := hd
  sameDirectories _ := Iff.rfl
  manifest := ⟨content, x, hfile⟩
  kept earlier t later h := by simp at h
  located earlier t later h := by simp at h
  others _ _ _ := rfl

/-- A change of the manifest leaves its backups as they are. -/
theorem change (h : Keeps p start d dir taken) {content : ByteArray} {x : Bool}
    (hputs : d.Puts e (manifestName :: dir) content x) : Keeps p start e dir taken where
  cwd := hputs.cwd.trans h.cwd
  linkFree := hputs.linkFree h.linkFree
  sameDirectories l := (h.sameDirectories l).trans (hputs.sameDirectories l)
  manifest := ⟨content, x, hputs.node⟩
  kept earlier t later htaken := by
    rw [hputs.others]
    · exact h.kept earlier t later htaken
    · exact fun heq => snapshotName_ne_manifestName _ _ (List.cons.inj heq).1
  located := h.located
  others l hl hnew := (hputs.others l hl).trans (h.others l hl hnew)

/-- A new backup leaves the other ones and the manifest as they are. -/
theorem backup (h : Keeps p start d dir taken) {now : Int} {content : ByteArray} {k : Location}
    (hfree : d.tree.get? (snapshotName (taken.map Prod.fst) now :: dir) = none)
    (hk : start.locate true (p.withFileName (snapshotName (taken.map Prod.fst) now)) = .ok k)
    (hputs : d.Puts e (snapshotName (taken.map Prod.fst) now :: dir) content false) :
    Keeps p start e dir (taken ++ [(now, content)]) where
  cwd := hputs.cwd.trans h.cwd
  linkFree := hputs.linkFree h.linkFree
  sameDirectories l := (h.sameDirectories l).trans (hputs.sameDirectories l)
  manifest := by
    rw [hputs.others]
    · exact h.manifest
    · exact fun heq => snapshotName_ne_manifestName _ _ (List.cons.inj heq).1.symm
  kept := by
    refine split_concat (fun earlier t later htaken => ?_) hputs.node
    have hkept := h.kept earlier t later htaken
    rw [hputs.others]
    · exact hkept
    · intro heq
      rw [heq, hfree] at hkept
      cases hkept
  located := split_concat h.located ⟨k, hk⟩
  others l hl hnew := by
    rw [hputs.others l (hnew taken (now, content) [] rfl)]
    refine h.others l hl fun earlier t later htaken => ?_
    exact hnew earlier t (later ++ [(now, content)]) (by simp [htaken])

end Keeps

namespace Keeps

variable {p : Path} {start d : Disk} {dir : Location} {taken : List (Int × ByteArray)}

/-- A path leads to the same place as at the start. -/
theorem locate (h : Keeps p start d dir taken) (hd : start.tree.LinkFree) {q : Path} {l : Location} :
    start.locate true q = .ok l ↔ d.locate true q = .ok l :=
  Disk.locate_of_sameDirectories hd h.linkFree h.sameDirectories h.cwd

/-- All names are still names that entries can have. -/
theorem namesProper (h : Keeps p start d dir taken) (ht : start.tree.NamesProper) :
    d.tree.NamesProper := by
  obtain ⟨content, x, hfile⟩ := h.manifest
  have hparent := FileTree.get?_parent hfile
  rw [← h.sameDirectories] at hparent
  have hdir : ∀ n ∈ dir, IsName n := FileTree.isName_of_isSome ht (by rw [hparent]; rfl)
  rintro ⟨l, node⟩ hmem name hname
  have hl : l ≠ [] := by
    rintro rfl
    cases hname
  have hsome : (d.tree.get? l).isSome := by
    rw [(FileTree.get?_eq_some_iff hl).2 hmem]
    rfl
  by_cases hmanifest : l = manifestName :: dir
  · subst hmanifest
    rcases List.mem_cons.1 hname with rfl | hname
    · decide
    · exact hdir name hname
  · by_cases hnew : ∀ earlier t later, taken = earlier ++ t :: later →
        l ≠ snapshotName (earlier.map Prod.fst) t.1 :: dir
    · rw [h.others l hmanifest hnew] at hsome
      exact FileTree.isName_of_isSome ht hsome name hname
    · push Not at hnew
      obtain ⟨earlier, t, later, -, rfl⟩ := hnew
      rcases List.mem_cons.1 hname with rfl | hname
      · exact isName_append_backupSuffix (by decide) _ _
      · exact hdir name hname

/-- What looks like a backup of the manifest is one that has been made. -/
theorem exists_of_present (h : Keeps p start d dir taken)
    (hnone : ∀ name s, Stamp.ofName? manifestName name = some s → start.tree.get? (name :: dir) = none)
    (htimes : Nameable (taken.map Prod.fst)) {name : String} {s : Stamp}
    (hname : Stamp.ofName? manifestName name = some s) (hsome : (d.tree.get? (name :: dir)).isSome) :
    ∃ earlier t later, taken = earlier ++ t :: later ∧
      name = snapshotName (earlier.map Prod.fst) t.1 ∧
      s = snapshotStamp (earlier.map Prod.fst) t.1 := by
  have hother : name ≠ manifestName := by
    rintro rfl
    obtain ⟨-, suffix, hne, heq⟩ := of_ofName?_manifestName hname
    rw [← String.toList_inj, String.toList_append] at heq
    exact hne (by simpa using heq)
  have hmade : ¬ ∀ earlier t later, taken = earlier ++ t :: later →
      name :: dir ≠ snapshotName (earlier.map Prod.fst) t.1 :: dir := by
    intro hnew
    rw [h.others _ (fun heq => hother (List.cons.inj heq).1) hnew, hnone name s hname] at hsome
    cases hsome
  push Not at hmade
  obtain ⟨earlier, t, later, rfl, heq⟩ := hmade
  obtain ⟨rfl, -⟩ := List.cons.inj heq
  have hearlier : Nameable (earlier.map Prod.fst ++ [t.1]) := by
    rw [List.map_append, List.map_cons, List.append_cons] at htimes
    exact htimes.of_append
  rw [hearlier.ofName?_snapshotName, Option.some.injEq] at hname
  exact ⟨earlier, t, later, rfl, rfl, hname.symm⟩

end Keeps

/-- Every history of a manifest keeps its backups. -/
theorem Snapshots.keeps {start d : Disk} {dir : Location} {taken : List (Int × ByteArray)} {q : Path}
    (hq : q.isAbsolute) (hd : start.tree.LinkFree)
    (hl : start.locate true (q.child manifestName) = .ok (manifestName :: dir))
    (hfile : ∃ content x, start.tree.get? (manifestName :: dir) = some (.file content x))
    (hnone : ∀ name s, Stamp.ofName? manifestName name = some s → start.tree.get? (name :: dir) = none)
    (h : Snapshots (q.child manifestName) start taken d) (htimes : Nameable (taken.map Prod.fst)) :
    Keeps (q.child manifestName) start d dir taken := by
  induction h with
  | start =>
    obtain ⟨content, x, hfile⟩ := hfile
    exact .refl hd hfile
  | @change taken d e content _ hwrite ih =>
    have hkeeps := ih htimes
    obtain ⟨old, x, hold⟩ := hkeeps.manifest
    have hdl := (hkeeps.locate hd).1 hl
    obtain ⟨f, hf, hputs⟩ := Disk.exists_write content hdl hold
    cases hf.symm.trans hwrite
    exact hkeeps.change hputs
  | @backup taken d now content name _ hread hmade ih =>
    rw [List.map_append] at htimes
    have hkeeps := ih htimes.of_append
    obtain ⟨old, x, hold⟩ := hkeeps.manifest
    have hdl := (hkeeps.locate hd).1 hl
    have hcontent : old = content := by
      rw [Disk.readBytes, hdl] at hread
      simp only [bind, Except.bind, hold] at hread
      exact Except.ok.inj hread
    subst hcontent
    rcases @Disk.backUp_file d hkeeps.linkFree now _ _ _ _ hdl hold with
      ⟨error, hfailed⟩ | ⟨e, j, k, hdone, hat⟩
    · rw [hfailed] at hmade
      cases hmade
    · rw [hdone]
      obtain ⟨hj, hk⟩ := hkeeps.turn_eq hq hnone htimes hdl hat
      have hputs := hat.puts
      obtain ⟨hplace, hfree⟩ := hat.free
      rw [hk] at hputs hfree
      rw [hj, backupName_of_fileName (Path.fileName?_child _ (by decide))] at hplace
      exact hkeeps.backup hfree ((hkeeps.locate hd).2 hplace) hputs

/-- A restore comes to the manifest in a directory below a root and can read a backup of it: the path
under which the backup is found is short enough, and all manifests before this one have been restored
or left out. -/
structure Disk.ComesTo (d : Disk) (root : Path) (config : Config) (age : BackupAge) (ns : List String)
    (backup : String) : Prop where
  room : ns = [] → root.LeavesRoom backup
  before : ∀ r ∈ age.choose (findBackups d root config),
    r.file.compare ((root.descend ns).child manifestName) = .lt → d.isFile r.file → d.isFile r.backup

section History

variable {root : Path} {config : Config} {start d : Disk} {ns : List String} {dir : Location}
  {taken : List (Int × ByteArray)}

/-- A manifest has the same components below a root as below the start of a search. -/
theorem Disk.SearchesFrom.compare_manifest {base : Path} {here : Location}
    (hs : d.SearchesFrom root base here) (hroot : root.isAbsolute) (hns : ∀ n ∈ ns, IsName n)
    {p q : Path} (hp : p.same ((base.descend ns).child manifestName)) :
    q.compare ((root.descend ns).child manifestName) = q.compare p := by
  have hmanifest : IsName manifestName := by decide
  have hplain := Path.plain_of_isAbsolute hroot
  have hbase := Path.plain_of_isAbsolute hs.absolute
  rw [Path.same, decide_eq_true_eq, components_child_descend hbase hns hmanifest,
    hbase.components, hs.absolute, hs.names] at hp
  rw [Path.compare, Path.compare, hp, components_child_descend hplain hns hmanifest, hplain.components,
    hroot]

section Choice

variable {p : Path} {base : Path} {here : Location} {age : BackupAge}
  {earlier later : List (Int × ByteArray)} {t : Int × ByteArray}

/-- The backups that have been made are found, if their directory is searched. -/
theorem Keeps.holdsBackup (h : Keeps p start d (ns.reverse ++ here) taken)
    (hns : ∀ n ∈ ns, n ∉ config.ignore)
    (hconfig : ∀ name s, Stamp.ofName? manifestName name = some s → name ∉ config.ignore)
    (htimes : Nameable (taken.map Prod.fst)) (hreadable : d.isDirectory (base.descend ns))
    (htaken : taken = earlier ++ t :: later) :
    d.HoldsBackup config base here ns (snapshotName (earlier.map Prod.fst) t.1)
      (snapshotStamp (earlier.map Prod.fst) t.1) := by
  have hstamp : Stamp.ofName? manifestName (snapshotName (earlier.map Prod.fst) t.1) =
      some (snapshotStamp (earlier.map Prod.fst) t.1) := by
    rw [htaken, List.map_append, List.map_cons, List.append_cons] at htimes
    exact htimes.of_append.ofName?_snapshotName
  refine ⟨hstamp, by rw [h.kept earlier t later htaken]; rfl, hreadable, fun n hn => ?_⟩
  rcases List.mem_append.1 hn with hn | hn
  · exact hns n hn
  · exact List.mem_singleton.1 hn ▸ hconfig _ _ hstamp

/-- A backup is chosen if no backup with another name is as well suited to the wanted age. -/
theorem Keeps.backup_of_chooses (h : Keeps p start d (ns.reverse ++ here) taken)
    (hnone : ∀ name s, Stamp.ofName? manifestName name = some s →
      start.tree.get? (name :: (ns.reverse ++ here)) = none)
    (htimes : Nameable (taken.map Prod.fst))
    (hholds : d.HoldsBackup config base here ns (snapshotName (earlier.map Prod.fst) t.1)
      (snapshotStamp (earlier.map Prod.fst) t.1))
    (hbest : ∀ earlier' t' later', taken = earlier' ++ t' :: later' →
      age.Prefers (snapshotStamp (earlier'.map Prod.fst) t'.1)
        (snapshotStamp (earlier.map Prod.fst) t.1) →
      snapshotName (earlier'.map Prod.fst) t'.1 = snapshotName (earlier.map Prod.fst) t.1)
    {r : SavedFile} (hr : d.Chooses config base here age ns r) :
    r.backup = (base.descend ns).child (snapshotName (earlier.map Prod.fst) t.1) := by
  obtain ⟨name, s, hother, hbackup, -, hfirst⟩ := hr.backup
  obtain ⟨earlier', t', later', htaken', rfl, rfl⟩ :=
    h.exists_of_present hnone htimes hother.stamp hother.present
  rw [hbackup]
  by_contra hne
  have hdiffer : snapshotName (earlier.map Prod.fst) t.1 ≠ snapshotName (earlier'.map Prod.fst) t'.1 :=
    fun heq => hne (by rw [heq])
  have hprefers := BackupAge.prefers_of_before (.inr (hfirst _ _ hholds hdiffer))
  exact hdiffer (hbest _ _ _ htaken' hprefers).symm

/-- Where there have been no backups at the start, nothing but the manifest is restored. -/
theorem Keeps.names_of_chooses (h : Keeps p start d (ns.reverse ++ here) taken)
    (halone : ∀ l name s, Stamp.ofName? manifestName name = some s → start.tree.get? (name :: l) = none)
    {ms : List String} {r : SavedFile} (hr : d.Chooses config base here age ms r) : ms = ns := by
  obtain ⟨name, s, hholds, -⟩ := hr.backup
  by_contra hne
  have hapart (other : String) : name :: (ms.reverse ++ here) ≠ other :: (ns.reverse ++ here) :=
    fun heq => hne (Disk.names_eq_of_cons heq).2
  have hsome := hholds.present
  rw [h.others _ (hapart _) fun _ _ _ _ => hapart _, halone _ _ _ hholds.stamp] at hsome
  cases hsome

end Choice

/-- After every history a restore that comes to the manifest gives it what it held at a backup, if no
backup with another name is as well suited to the wanted age. -/
theorem Keeps.restore (hroot : root.isAbsolute) (hd : start.tree.LinkFree) (ht : start.tree.NamesProper)
    (hns : ∀ n ∈ ns, IsName n ∧ n ∉ config.ignore)
    (hconfig : ∀ name s, Stamp.ofName? manifestName name = some s → name ∉ config.ignore)
    (hl : start.locate true ((root.descend ns).child manifestName) = .ok (manifestName :: dir))
    (hnone : ∀ name s, Stamp.ofName? manifestName name = some s → start.tree.get? (name :: dir) = none)
    (h : Keeps ((root.descend ns).child manifestName) start d dir taken)
    (htimes : Nameable (taken.map Prod.fst)) {age : BackupAge} {earlier later : List (Int × ByteArray)}
    {t : Int × ByteArray} (htaken : taken = earlier ++ t :: later)
    (hbest : ∀ earlier' t' later', taken = earlier' ++ t' :: later' →
      age.Prefers (snapshotStamp (earlier'.map Prod.fst) t'.1)
        (snapshotStamp (earlier.map Prod.fst) t.1) →
      snapshotName (earlier'.map Prod.fst) t'.1 = snapshotName (earlier.map Prod.fst) t.1)
    (hcomes : d.ComesTo root config age ns (snapshotName (earlier.map Prod.fst) t.1)) :
    (restoreManifests d root config age false).disk.readBytes
      ((root.descend ns).child manifestName) = .ok t.2 := by
  have hproper : ∀ n ∈ ns, IsName n := fun n hn => (hns n hn).1
  have hmanifest : IsName manifestName := by decide
  have hname : IsName (snapshotName (earlier.map Prod.fst) t.1) :=
    isName_append_backupSuffix hmanifest _ _
  obtain ⟨hq, hqnames⟩ := Path.descend_spec hroot hproper
  have hplace := (h.locate hd).1 hl
  obtain ⟨base, here, hs, heq⟩ := Disk.exists_searchesFrom h.linkFree hroot hproper hmanifest hplace
  obtain rfl := (List.cons.inj heq).2
  obtain ⟨old, x, hold⟩ := h.manifest
  have hdt := h.namesProper ht
  -- The backup can be read where it is found, so that its directory is searched.
  have hkept := h.kept earlier t later htaken
  obtain ⟨k, hk⟩ := h.located earlier t later htaken
  obtain ⟨-, hfound⟩ := hs.locate_sibling h.linkFree hcomes.room hq hqnames hproper hmanifest
    hname hplace ((h.locate hd).1 hk)
  have hplain := (Path.plain_of_isAbsolute hs.absolute).descend fun n hn => (hproper n hn).2.2.2
  have hholds := h.holdsBackup (fun n hn => (hns n hn).2) hconfig htimes
    (Disk.isDirectory_of_locate_child h.linkFree hplain.1 hname hfound) htaken
  have hplan := Disk.plans_choose h.linkFree hdt hroot config age
  obtain ⟨r, hr, hchooses⟩ := hplan.complete _ _ _ _ _ hs hholds
  have hbackup := h.backup_of_chooses hnone htimes hholds hbest hchooses
  have hfile : d.isFile r.backup := hbackup ▸ Disk.isFile_iff.2 ⟨_, hfound, t.2, false, hkept⟩
  have hcopies : ∀ s ∈ age.choose (findBackups d root config),
      s = r ∨ s.file.compare r.file = .lt → d.isFile s.file → d.isFile s.backup := by
    rintro s hs' (rfl | hbefore) hsfile
    · exact hfile
    · rw [← hs.compare_manifest hroot hproper hchooses.file] at hbefore
      exact hcomes.before s hs' hbefore hsfile
  obtain ⟨done, hdone, -, hafter⟩ := (Disk.restoreManifests_carriesOut h.linkFree hdt hroot config
    age).reaches hplan.ascending hr hcopies
  obtain ⟨k, content, y, hk, hcontent, hcopied⟩ := hafter.copied r hdone _
    (hchooses.locate_file h.linkFree hdt hs hfile) ⟨old, x, hold⟩
  rw [hbackup] at hk
  cases hk.symm.trans hfound
  cases hcontent.symm.trans hkept
  rw [Disk.readBytes, (hafter.sameShape h.linkFree).locate.1 hplace]
  simp only [bind, Except.bind, hcopied]

end History

theorem hasShortYear_zero : Instant.HasShortYear 0 := by
  rw [Instant.HasShortYear]
  decide +kernel

/-- A restore below a root that leaves no room for the backup cannot read it and changes nothing. -/
theorem Keeps.restore_stops (hroot : root.isAbsolute) (hfolder : root.folder = Path.opening root.names)
    (hd : start.tree.LinkFree) (ht : start.tree.NamesProper)
    (hconfig : ∀ name s, Stamp.ofName? manifestName name = some s → name ∉ config.ignore)
    (hl : start.locate true (root.child manifestName) = .ok (manifestName :: dir))
    (halone : ∀ l name s, Stamp.ofName? manifestName name = some s → start.tree.get? (name :: l) = none)
    (h : Keeps (root.child manifestName) start d dir taken) (htimes : Nameable (taken.map Prod.fst))
    {age : BackupAge} {earlier later : List (Int × ByteArray)} {t : Int × ByteArray}
    (htaken : taken = earlier ++ t :: later)
    (hbest : ∀ earlier' t' later', taken = earlier' ++ t' :: later' →
      age.Prefers (snapshotStamp (earlier'.map Prod.fst) t'.1)
        (snapshotStamp (earlier.map Prod.fst) t.1) →
      snapshotName (earlier'.map Prod.fst) t'.1 = snapshotName (earlier.map Prod.fst) t.1)
    (hlong : Disk.pathLimit ≤
      root.folder.utf8ByteSize + (snapshotName (earlier.map Prod.fst) t.1).utf8ByteSize) :
    (restoreManifests d root config age false).result.isOk = false ∧
      d.Holds (restoreManifests d root config age false).disk [] := by
  have hmanifest : IsName manifestName := by decide
  have hname : IsName (snapshotName (earlier.map Prod.fst) t.1) :=
    isName_append_backupSuffix hmanifest _ _
  have hplace := (h.locate hd).1 hl
  have hdt := h.namesProper ht
  obtain ⟨base, hs⟩ : ∃ base, d.SearchesFrom root base dir := by
    obtain ⟨base, here, hs, heq⟩ := @Disk.exists_searchesFrom d h.linkFree root hroot [] (by simp)
      manifestName hmanifest true _ hplace
    exact ⟨base, (List.cons.inj heq).2 ▸ hs⟩
  have hbase : base.folder = root.folder := hs.folder.trans hfolder.symm
  have h' : Keeps (root.child manifestName) start d ([].reverse ++ dir) taken := h
  have hreadable : d.isDirectory base := Disk.isDirectory_iff.2 ⟨dir, hs.located, hs.leads.2⟩
  have hholds := h'.holdsBackup (by simp) hconfig htimes hreadable htaken
  have hplan := Disk.plans_choose h.linkFree hdt hroot config age
  have hunread : ∀ r ∈ age.choose (findBackups d root config), d.isFile r.file ∧
      d.isFile r.backup = false := by
    intro r hr
    obtain ⟨base', here, ms, hs', hchooses⟩ := hplan.sound r hr
    cases Option.some.inj (hs.found.symm.trans hs'.found)
    cases Except.ok.inj (hs.located.symm.trans hs'.located)
    obtain rfl := h'.names_of_chooses halone hchooses
    have hbackup := h'.backup_of_chooses (fun name s => halone _ name s) htimes hholds hbest hchooses
    constructor
    · obtain ⟨old, x, hold⟩ := h.manifest
      exact hchooses.isFile_of_root h.linkFree hdt hs hroot hfolder hplace ⟨old, x, hold⟩
    · rw [Bool.eq_false_iff]
      intro hfile
      obtain ⟨l, hl, -⟩ := Disk.isFile_iff.1 hfile
      rw [hbackup] at hl
      have hrefusal := ((Disk.locate_child_eq_ok_iff h.linkFree hs.absolute hname).1 hl).1
      rw [Disk.refusal?_eq_none_iff, Path.text_child hs.absolute hname.2.2.2, String.utf8ByteSize_append,
        hbase] at hrefusal
      omega
  obtain ⟨r, hr, -⟩ := hplan.complete _ _ _ _ _ hs hholds
  obtain ⟨done, hsub, hafter, hbefore⟩ :=
    (Disk.restoreManifests_carriesOut h.linkFree hdt hroot config age).before_of_unread hplan.ascending
  obtain ⟨hfile, hbackup⟩ := hunread r hr
  have hnone : done = [] := by
    rw [List.eq_nil_iff_forall_not_mem]
    intro s hs
    obtain ⟨hfile, hbackup⟩ := hunread s (hsub hs)
    rw [hafter.isFile_backup hs hfile] at hbackup
    cases hbackup
  exact ⟨(hbefore r hr hfile hbackup).1, hnone ▸ hafter⟩

/-- A directory with nothing but a manifest. -/
def loneManifest (content : String) : Disk where
  tree := {
    nodes := [(["Cargo.toml", "w"], .file content.toUTF8 false), (["w"], .directory)]
    nodup := by simp
    closed := by simp }
  cwd := []

/-- A path to the directory behind which the name of a manifest has room, but that of a backup has
none. -/
def pointedRoot : Path := (Path.mk "/w").detour ["."] 2040

section PointedRoot

variable (content : String)

theorem linkFree_loneManifest : (loneManifest content).tree.LinkFree :=
  FileTree.linkFree_of_nodes (by simp [loneManifest])

theorem namesProper_loneManifest : (loneManifest content).tree.NamesProper := by
  simp [FileTree.NamesProper, loneManifest]
  decide

theorem noBackups_loneManifest (l : Location) (name : String) (s : Stamp)
    (hname : Stamp.ofName? manifestName name = some s) :
    (loneManifest content).tree.get? (name :: l) = none := by
  refine FileTree.noBackups_of_nodes ?_ l name s hname
  have hnot : ∀ n ∈ ["Cargo.toml", "w"], Stamp.ofName? manifestName n = none := by decide +kernel
  simpa [loneManifest] using hnot

theorem rounds_loneManifest : (loneManifest content).Rounds ⟨"/w"⟩ ["."] ["w"] where
  absolute := by decide
  folder := by decide
  sound := by decide
  pieces := by decide
  leads := ⟨rfl, rfl⟩
  back := rfl

theorem isAbsolute_pointedRoot : pointedRoot.isAbsolute := by
  obtain ⟨habs, -⟩ := (rounds_loneManifest "").detour 2040
  exact habs

theorem size_folder_pointedRoot : pointedRoot.folder.utf8ByteSize = 4083 := by
  rw [pointedRoot, (rounds_loneManifest "").size_folder]
  decide

theorem leads_pointedRoot : (loneManifest content).locate true pointedRoot = .ok ["w"] := by
  rw [pointedRoot]
  refine (rounds_loneManifest content).locate_detour (linkFree_loneManifest content) ?_
  rw [← pointedRoot, size_folder_pointedRoot]
  decide

theorem locate_pointedRoot : (loneManifest content).locate true (pointedRoot.child manifestName) =
    .ok ["Cargo.toml", "w"] := by
  refine ((rounds_loneManifest content).locate_child_iff (linkFree_loneManifest content) (by decide)
    (by decide) (by decide)).2 ?_
  rw [← pointedRoot, size_folder_pointedRoot]
  decide

/-- The manifest can be backed up under the path with points, since they are left out of the path of
the backup. -/
theorem backUp_pointedRoot (now : Instant) : ∃ e,
    (loneManifest content).backUp now (pointedRoot.child manifestName) =
      { disk := e, result := .ok (plainBackup (pointedRoot.child manifestName)) } ∧
    (loneManifest content).Puts e ["Cargo.toml.bak", "w"] content.toUTF8 false := by
  have hname : plainBackup (pointedRoot.child manifestName) = ⟨"/w/Cargo.toml.bak"⟩ := by
    have hmanifest : IsName manifestName := by decide
    have hplain := backupName_of_fileName (Path.fileName?_child pointedRoot hmanifest) 0 0
    rw [backupName] at hplain
    rw [hplain, pointedRoot, Path.withFileName_points (by decide) hmanifest]
    decide +kernel
  have hplace : (loneManifest content).locate false ⟨"/w/Cargo.toml.bak"⟩ =
      .ok ["Cargo.toml.bak", "w"] := by
    have hchild : Path.mk "/w/Cargo.toml.bak" = (Path.mk "/w").child "Cargo.toml.bak" := by decide
    rw [hchild, Disk.locate_child_eq_ok_iff (linkFree_loneManifest content) (by decide) (by decide)]
    exact ⟨by decide, by decide, ["w"], ⟨rfl, rfl⟩, rfl⟩
  rw [← hname] at hplace
  obtain ⟨e, hmade, -, hputs⟩ := Disk.backUp_of_free (locate_pointedRoot content)
    rfl (Nat.zero_le _) (by simp) hplace rfl rfl
  exact ⟨e, hmade, hputs⟩

variable {content}

/-- Whatever the manifest is changed to after its only backup, a restore cannot bring it back. -/
theorem Snapshots.restore_pointedRoot {d : Disk}
    (h : Snapshots (pointedRoot.child manifestName) (loneManifest content) [(0, content.toUTF8)] d) :
    (restoreManifests d pointedRoot {} .oldest false).result.isOk = false ∧
      d.Holds (restoreManifests d pointedRoot {} .oldest false).disk [] := by
  have hrounds := rounds_loneManifest content
  have hd := linkFree_loneManifest content
  have hl := locate_pointedRoot content
  have hnone := noBackups_loneManifest content
  have habs := isAbsolute_pointedRoot
  have htimes : Nameable [0] := nameable_replicate hasShortYear_zero (by decide : 1 < 4294967296)
  have hkeeps := h.keeps habs hd hl ⟨_, _, rfl⟩ (hnone _) htimes
  refine hkeeps.restore_stops habs (hrounds.opening_detour 2040) hd (namesProper_loneManifest content)
    Config.not_mem_ignore_of_stamp hl hnone htimes (List.nil_append _).symm ?_ ?_
  · intro earlier t later htaken hprefers
    cases earlier with
    | nil => rw [(List.cons.inj htaken).1]
    | cons first between => cases hprefers
  · rw [size_folder_pointedRoot]
    exact (by decide : Disk.pathLimit ≤ 4083 + (snapshotName [] 0).utf8ByteSize)

end PointedRoot

end ManifestUpkeep
