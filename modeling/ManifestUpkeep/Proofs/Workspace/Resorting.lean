import ManifestUpkeep.Proofs.Order.Idempotence
import ManifestUpkeep.Proofs.Workspace.Rewritten

/-!
Sorting again. Each manifest of a project that has been sorted holds the text of the ordered manifest
or has been left as it was, so that a second sort finds nothing to write.
-/
namespace ManifestUpkeep
open Toml Calendar

/-! ### Loading again -/

section Loading

variable {disk after : Disk} {root : Path} {config : Config} {w : Workspace} {own : Option String}

theorem order_text_congr {m n : Manifest} (h : m.document = n.document) :
    (m.order own).text = (n.order own).text := by
  obtain ⟨p, document⟩ := m
  obtain ⟨q, document'⟩ := n
  cases h
  rfl

/-- A sort of a project that has been loaded rewrites the manifests whose texts change. -/
theorem rewritten_of_order {now : Instant} {report : SortReport} (hlinks : disk.tree.LinkFree)
    (hload : Workspace.load disk root config = .ok w)
    (hok : (w.order disk now own false).2.result = .ok report) :
    Rewritten disk (w.order disk now own false).2.disk
      (orderTargets (own.or w.config.internalPrefix) w.manifests) := by
  have hmem := load_of_mem hload
  have hof {m : Manifest} (hm : m ∈ orderTargets (own.or w.config.internalPrefix) w.manifests) :
      ∃ old ∈ w.manifests, m = old.order (own.or w.config.internalPrefix) := by
    obtain ⟨old, hold, rfl⟩ := List.mem_map.1 hm
    exact ⟨old, (List.mem_filter.1 hold).1, rfl⟩
  obtain ⟨-, hsaved⟩ := saved_of_orderAll hok
  have hwritten : Rewritten disk
      (saveAll now (orderTargets (own.or w.config.internalPrefix) w.manifests) [] disk).2.disk
        ([] ++ orderTargets (own.or w.config.internalPrefix) w.manifests) := by
    refine (Rewritten.refl hlinks).saveAll hlinks (fun m hm => ?_) (fun m hm m' hm' l hl hl' => ?_)
      (by rw [hsaved])
    · obtain ⟨old, hold, rfl⟩ := hof hm
      exact fileAt_of_load (hmem old hold)
    · obtain ⟨old, hold, rfl⟩ := hof hm
      obtain ⟨old', hold', rfl⟩ := hof hm'
      exact order_text_congr (document_of_load (hmem old hold) (hmem old' hold') hl hl')
  rwa [hsaved] at hwritten

/-- A manifest that has been sorted holds its ordered text, or its file is as it was. -/
theorem Rewritten.readText (h : Rewritten disk after (orderTargets own w.manifests))
    (hlinks : disk.tree.LinkFree) (hload : Workspace.load disk root config = .ok w) {m : Manifest}
    (hm : m ∈ w.manifests) :
    (m.order own).differs m = true ∧ after.readText m.path = .ok (m.order own).text ∨
      (m.order own).differs m = false ∧ after.readText m.path = disk.readText m.path := by
  have hmem := load_of_mem hload
  cases hd : (m.order own).differs m with
  | true =>
    have htarget : m.order own ∈ orderTargets own w.manifests :=
      List.mem_map_of_mem (List.mem_filter.2 ⟨hm, hd⟩)
    exact .inl ⟨rfl, h.readText_of_mem hlinks htarget⟩
  | false =>
    refine .inr ⟨rfl, h.readText_of_apart hlinks (hmem m hm) fun m' hm' l hl hl' => ?_⟩
    obtain ⟨old, hold, rfl⟩ := List.mem_map.1 hm'
    obtain ⟨hold, hdiffers⟩ := List.mem_filter.1 hold
    have hdocument := document_of_load (hmem m hm) (hmem old hold) hl hl'
    have hsame : (m.order own).differs m = (old.order own).differs old := by
      rw [Manifest.differs, Manifest.differs, order_text_congr hdocument, Manifest.text,
        Manifest.text,
        hdocument]
      rfl
    rw [hd, hdiffers] at hsame
    cases hsame

/-- A sorted manifest that is loaded again is in order. It can be loaded if its text can be read. -/
theorem Rewritten.reload (h : Rewritten disk after (orderTargets own w.manifests))
    (hlinks : disk.tree.LinkFree) (hload : Workspace.load disk root config = .ok w) {m : Manifest}
    (hm : m ∈ w.manifests) (hn : nestingOfEntries (m.order own).document.entries ≤ nestingLimit) :
    (∀ m', Manifest.load after m.path = .ok m' → (m'.order own).differs m' = false) ∧
      ((m.order own).document.InOrder → ∃ m', Manifest.load after m.path = .ok m') := by
  have hold := load_of_mem hload m hm
  rcases h.readText hlinks hload hm with ⟨-, htext⟩ | ⟨hsame, htext⟩
  · obtain ⟨text, -, hparse⟩ := Manifest.parse_of_load hold
    rw [Manifest.load, htext]
    refine ⟨fun m' hm' => ?_, fun ho => ?_⟩
    · rw [Manifest.differs, Manifest.text_order_of_reread own hparse hn hm']
      simp
    · have hlegible := Manifest.legible_order own (Manifest.legible_of_parse hparse) hn
      obtain ⟨d, hd⟩ := Option.isSome_iff_exists.1 (hlegible.parse?_render.1.2 ho)
      exact ⟨_, Manifest.parse_eq_ok _ hd⟩
  · rw [Manifest.load, htext]
    refine ⟨fun m' hm' => ?_, fun _ => ⟨m, hold⟩⟩
    cases hold.symm.trans hm'
    exact hsame

/-- A project that has been sorted is in order when it is loaded again. It can be loaded if the
texts of its manifests can be read. -/
theorem Rewritten.reload_all (h : Rewritten disk after (orderTargets own w.manifests))
    (hlinks : disk.tree.LinkFree) (hnames : disk.tree.NamesProper)
    (hload : Workspace.load disk root config = .ok w)
    (hn : ∀ m ∈ w.manifests, nestingOfEntries (m.order own).document.entries ≤ nestingLimit) :
    (∀ w', Workspace.load after root config = .ok w' →
      ∀ m' ∈ w'.manifests, (m'.order own).differs m' = false) ∧
    ((∀ m ∈ w.manifests, (m.order own).document.InOrder) →
      ∃ w', Workspace.load after root config = .ok w') := by
  refine ⟨fun w' hload' m' hm' => ?_, fun ho => ?_⟩
  · obtain ⟨m, hm, hpath⟩ := h.exists_path_of_reload hlinks hnames hload hload' hm'
    exact (h.reload hlinks hload hm (hn m hm)).1 m' (hpath ▸ load_of_mem hload' m' hm')
  · exact h.exists_reload hlinks hnames hload fun m hm =>
      (h.reload hlinks hload hm (hn m hm)).2 (ho m hm)

end Loading

/-- A sort of manifests in order does nothing. -/
theorem orderAll_of_same {now : Instant} {own : Option String} {dryRun : Bool}
    {manifests : List Manifest} (h : ∀ m ∈ manifests, (m.order own).differs m = false)
    (report : SortReport) (disk : Disk) :
    (orderAll now own dryRun manifests report disk).2 = { disk, result := .ok report } := by
  induction manifests with
  | nil => rfl
  | cons m rest ih =>
    obtain ⟨hm, hrest⟩ := List.forall_mem_cons.1 h
    rw [orderAll]
    simp only [hm, Bool.not_false, if_true, ih hrest]

/-! ### Sorting again -/

/-- Ordering a manifest that is in order changes neither it nor what its text is read as. The text
can be read if its values do not nest too deeply and its sections are in order. -/
structure Manifest.StaysOrdered (own : Option String) (m : Manifest) : Prop where
  memory : m.order own = m
  unchanged : (m.order own).differs m = false
  readable : nestingOfEntries m.document.entries ≤ nestingLimit → m.document.InOrder →
    ∃ m', Manifest.parse m.path m.text = .ok m'
  reread : nestingOfEntries m.document.entries ≤ nestingLimit →
    ∀ m', Manifest.parse m.path m.text = .ok m' →
      (m'.order own).text = m'.text ∧ (m'.order own).differs m' = false

theorem Manifest.staysOrdered_order {path : Path} {text : String} {m : Manifest}
    (own : Option String) (h : Manifest.parse path text = .ok m) :
    (m.order own).StaysOrdered own := by
  have hlegible := Manifest.legible_of_parse h
  have hsame := Manifest.order_order own hlegible.distinct
  have hpath : (m.order own).path = m.path := rfl
  rw [Manifest.path_of_parse h] at hpath
  refine ⟨hsame, by rw [hsame, Manifest.differs]; simp, fun hn ho => ?_, fun hn m' hm' => ?_⟩
  · obtain ⟨d, hd⟩ :=
      Option.isSome_iff_exists.1 ((Manifest.legible_order own hlegible hn).parse?_render.1.2 ho)
    exact ⟨_, Manifest.parse_eq_ok _ hd⟩
  · rw [hpath] at hm'
    have htext := Manifest.text_order_of_reread own h hn hm'
    exact ⟨htext, by rw [Manifest.differs, htext]; simp⟩

/-- A sort of a project after a sort that has succeeded leaves every file as it is. If the manifests
can be read again, it succeeds and reports neither a change nor a backup. -/
theorem Operation.order_again {disk : Disk} {root : Path} {config : Config} {w : Workspace}
    {own : Option String} {now : Instant} {report : Report} (hlinks : disk.tree.LinkFree)
    (hnames : disk.tree.NamesProper) (hload : Workspace.load disk root config = .ok w)
    (hok : ((Operation.order own).run root config now false disk).result = .ok report)
    (hn : ∀ m ∈ w.manifests,
      nestingOfEntries (m.order (own.or config.internalPrefix)).document.entries ≤ nestingLimit)
    (later : Instant) (dryRun : Bool) {after : Disk}
    (hafter : ((Operation.order own).run root config now false disk).disk = after) :
    ((Operation.order own).run root config later dryRun after).disk = after ∧
      (∀ r, ((Operation.order own).run root config later dryRun after).result = .ok r →
        r = .order ⟨[], [], dryRun⟩) ∧
      ((∀ m ∈ w.manifests, (m.order (own.or config.internalPrefix)).document.InOrder) →
        ((Operation.order own).run root config later dryRun after).result =
          .ok (.order ⟨[], [], dryRun⟩)) := by
  simp only [Operation.run, withProject_of_load hload, Outcome.map_disk] at hok hafter
  obtain ⟨report, hok, -⟩ := Outcome.map_eq_ok_iff.1 hok
  have hrewritten := rewritten_of_order hlinks hload hok
  rw [Workspace.config_of_load hload, hafter] at hrewritten
  obtain ⟨hsame, hagain⟩ := hrewritten.reload_all hlinks hnames hload hn
  -- every load of the project is followed by a sort that does nothing
  have hrun {w' : Workspace} (hload' : Workspace.load after root config = .ok w') :
      (w'.order after later own dryRun).2 = { disk := after, result := .ok ⟨[], [], dryRun⟩ } := by
    rw [Workspace.order, Workspace.config_of_load hload']
    exact orderAll_of_same (hsame w' hload') _ _
  cases hload' : Workspace.load after root config with
  | error error =>
    have hrun : (Operation.order own).run root config later dryRun after =
        { disk := after, result := .error error } := by
      rw [Operation.run, withProject_of_error hload']
    refine ⟨by rw [hrun], fun r hr => ?_, fun ho => ?_⟩
    · rw [hrun] at hr
      cases hr
    · obtain ⟨w', hw'⟩ := hagain ho
      cases hload'.symm.trans hw'
  | ok w' =>
    have hrun : (Operation.order own).run root config later dryRun after =
        { disk := after, result := .ok (.order ⟨[], [], dryRun⟩) } := by
      rw [Operation.run, withProject_of_load hload', hrun hload']
      rfl
    rw [hrun]
    exact ⟨rfl, fun r hr => (Except.ok.inj hr).symm, fun _ => rfl⟩

/-- Sorting is idempotent. What has been ordered stays as it is, in memory and when its text is read
again. A sort of a project without links leaves every file as it is after a sort that has succeeded,
and backs up none. -/
theorem order_idempotent (own : Option String) :
    (∀ path text m, Manifest.parse path text = .ok m → (m.order own).StaysOrdered own) ∧
      ∀ (disk : Disk) root config w now report, disk.tree.LinkFree → disk.tree.NamesProper →
        Workspace.load disk root config = .ok w →
        ((Operation.order own).run root config now false disk).result = .ok report →
        (∀ m ∈ w.manifests, nestingOfEntries
          (m.order (own.or config.internalPrefix)).document.entries ≤ nestingLimit) →
        ∀ later dryRun after, ((Operation.order own).run root config now false disk).disk = after →
          ((Operation.order own).run root config later dryRun after).disk = after ∧
          (∀ r, ((Operation.order own).run root config later dryRun after).result = .ok r →
            r = .order ⟨[], [], dryRun⟩) ∧
          ((∀ m ∈ w.manifests, (m.order (own.or config.internalPrefix)).document.InOrder) →
            ((Operation.order own).run root config later dryRun after).result =
              .ok (.order ⟨[], [], dryRun⟩)) :=
  ⟨fun _ _ _ h => Manifest.staysOrdered_order own h,
    fun _ _ _ _ _ _ hlinks hnames hload hok hn later dryRun _ hafter =>
      Operation.order_again hlinks hnames hload hok hn later dryRun hafter⟩

/-- A section with a sub-table behind an entry that follows it in order. -/
def unsortedSection : String :=
  "[dependencies]\nb = \"1\"\n\n[dependencies.a]\nversion = \"1\"\n"

/-- A directory with a root manifest alone. -/
def unsortedAlone : Disk where
  tree := {
    nodes := [(["Cargo.toml", "w"], .file unsortedSection.toUTF8 false), (["w"], .directory)]
    nodup := by decide
    closed := by simp }
  cwd := []

theorem manifestPaths_unsortedAlone :
    Workspace.manifestPaths unsortedAlone ⟨"/w"⟩ {} = .ok [⟨"/w/Cargo.toml"⟩] := by
  have hlist : unsortedAlone.tree.list ["w"] = ["Cargo.toml"] := by
    simp [FileTree.list, unsortedAlone]
  have hsearch : unsortedAlone.search (· = manifestName) ⟨"/w"⟩ = [⟨"/w/Cargo.toml"⟩] := by
    have hbase : unsortedAlone.searchBase? ⟨"/w"⟩ = some ⟨"/w"⟩ := by decide +kernel
    have hroot : unsortedAlone.isDirectory ⟨"/w"⟩ = true := by decide +kernel
    have hhere : unsortedAlone.locate true ⟨"/w"⟩ = .ok ["w"] := by decide +kernel
    have hdepth : unsortedAlone.searchDepth = 122 + 1 := by decide
    have hpath : Disk.entryPath ⟨"/w"⟩ "Cargo.toml" = ⟨"/w/Cargo.toml"⟩ := by decide +kernel
    have hclosed : unsortedAlone.opensAt ["w"] "Cargo.toml" ⟨"/w/Cargo.toml"⟩ = false := by
      decide +kernel
    rw [Disk.search_eq, hbase]
    simp only [if_pos hroot, hdepth, Disk.pathsFrom_succ, hhere, hlist, List.flatMap_singleton]
    rw [Disk.foundAt_of_not_opensAt (by rw [hpath]; exact hclosed), hpath]
    decide +kernel
  have hfile : unsortedAlone.isFile ((Path.mk "/w").child manifestName) = true := by decide +kernel
  have hmembers : [Path.mk "/w/Cargo.toml"].filter (fun p =>
      !(p.same ((Path.mk "/w").child manifestName) || Config.ignores {} ⟨"/w"⟩ p)) = [] := by
    decide +kernel
  simp only [Workspace.manifestPaths, hfile, if_true, hsearch, hmembers, List.mergeSort_nil]
  decide +kernel

/-- The first sort of the directory writes its manifest. -/
theorem order_unsortedAlone {m : Manifest}
    (hm : Manifest.parse ⟨"/w/Cargo.toml"⟩ unsortedSection = .ok m)
    (hd : (m.order none).differs m = true) :
    ∃ report, ((⟨⟨"/w"⟩, {}, [m]⟩ : Workspace).order unsortedAlone 0 none false).2.result =
        .ok report ∧ report.changed = [⟨"/w/Cargo.toml"⟩] := by
  have hwritten : (Manifest.parse ⟨"/w/Cargo.toml"⟩ unsortedSection).map (fun m =>
      (BackupLog.write [] unsortedAlone 0 m.path (m.order none).text).2.result.isOk) =
        .ok true := by
    decide +kernel
  rw [hm] at hwritten
  obtain ⟨_, hwritten⟩ := exists_of_isOk (Except.ok.inj hwritten)
  simp only [Workspace.order, orderAll, hd, hwritten, Option.none_or, Bool.not_true,
    Bool.false_eq_true, if_false]
  exact ⟨_, rfl, congrArg (fun p => [p]) (Manifest.path_of_parse hm)⟩

theorem order_idempotent_of_unsortedAlone :
    ∃ m m' first, Manifest.parse ⟨"/w/Cargo.toml"⟩ unsortedSection = .ok m ∧
      Manifest.parse ⟨"/w/Cargo.toml"⟩ (m.order none).text = .ok m' ∧
      (m'.order none).text = m'.text ∧
      ((Operation.order none).run ⟨"/w"⟩ {} 0 false unsortedAlone).result = .ok (.order first) ∧
      first.changed = [⟨"/w/Cargo.toml"⟩] ∧
      ∀ after, ((Operation.order none).run ⟨"/w"⟩ {} 0 false unsortedAlone).disk = after →
        ((Operation.order none).run ⟨"/w"⟩ {} 1 false after).disk = after ∧
        ((Operation.order none).run ⟨"/w"⟩ {} 1 false after).result =
          .ok (.order ⟨[], [], false⟩) := by
  obtain ⟨m, hm⟩ : ∃ m, Manifest.parse ⟨"/w/Cargo.toml"⟩ unsortedSection = .ok m :=
    exists_of_isOk (by decide +kernel)
  have hbounds : (Manifest.parse ⟨"/w/Cargo.toml"⟩ unsortedSection).map (fun m =>
      decide (nestingOfEntries (m.order none).document.entries ≤ nestingLimit ∧
        (m.order none).document.InOrder ∧ (m.order none).differs m = true)) = .ok true := by
    cbv
  rw [hm] at hbounds
  obtain ⟨hn, ho, hd⟩ := of_decide_eq_true (Except.ok.inj hbounds)
  have hload : Workspace.load unsortedAlone ⟨"/w"⟩ {} = .ok ⟨⟨"/w"⟩, {}, [m]⟩ := by
    have htext : unsortedAlone.readText ⟨"/w/Cargo.toml"⟩ = .ok unsortedSection := by decide +kernel
    have hmanifest : Manifest.load unsortedAlone ⟨"/w/Cargo.toml"⟩ = .ok m := by
      rw [Manifest.load, htext]
      exact hm
    exact Workspace.load_of_loaded manifestPaths_unsortedAlone (.cons hmanifest .nil)
  have hlinks : unsortedAlone.tree.LinkFree := FileTree.linkFree_of_nodes (by simp [unsortedAlone])
  have hnames : unsortedAlone.tree.NamesProper := by
    simp [FileTree.NamesProper, unsortedAlone]
    decide
  obtain ⟨first, hfirst, hchanged⟩ := order_unsortedAlone hm hd
  have hok : ((Operation.order none).run ⟨"/w"⟩ {} 0 false unsortedAlone).result =
      .ok (.order first) := by
    rw [Operation.run, withProject_of_load hload]
    exact Outcome.map_eq_ok_iff.2 ⟨first, hfirst, rfl⟩
  obtain ⟨hstays, hruns⟩ := order_idempotent none
  have hstays := hstays _ _ m hm
  have hpath : m.path = ⟨"/w/Cargo.toml"⟩ := Manifest.path_of_parse hm
  obtain ⟨m', hm'⟩ := hstays.readable hn ho
  refine ⟨m, m', first, hm, hpath ▸ hm', (hstays.reread hn m' hm').1, hok, hchanged,
    fun after hafter => ?_⟩
  obtain ⟨hsame, -, hagain⟩ := hruns unsortedAlone ⟨"/w"⟩ {} _ 0 _ hlinks hnames hload hok
    (by simpa using hn) 1 false after hafter
  exact ⟨hsame, hagain (by simpa using ho)⟩

/-- A shared dependency whose array nests as deeply as it can. -/
def deepestShared : String :=
  "[workspace.dependencies.a]\nx = " ++
    String.ofList (List.replicate nestingLimit '[' ++ List.replicate nestingLimit ']') ++ "\n"

/-- The braces of the inline entry nest the array too deeply, so that there is nothing to sort
again. -/
theorem order_deepestShared :
    ∃ m, Manifest.parse ⟨"Cargo.toml"⟩ deepestShared = .ok m ∧
      ¬∃ m', Manifest.parse ⟨"Cargo.toml"⟩ (m.order none).text = .ok m' ∧
        (m'.order none).differs m' = false := by
  have hread : ((Document.parse? deepestShared).map fun d =>
      ((Manifest.mk ⟨"Cargo.toml"⟩ d).order none).document).any (fun d =>
        decide ((placeSections 0 (sectionsOfEntries [] d.entries)).Pairwise fun a b => a.1 ≤ b.1) &&
          (Document.parse? (Script.mk (statementsOfSections true
            (⟨[], false, {}, d.entries⟩ :: sectionsOfEntries [] d.entries))
              (dropReturns d.trailing)).write).isNone) = true := by
    decide +kernel
  obtain ⟨ordered, hordered, hunreadable⟩ := (Option.any_eq_true _ _).1 hread
  obtain ⟨hpairwise, hnone⟩ := Bool.and_eq_true_iff.1 hunreadable
  obtain ⟨d, hd, rfl⟩ := Option.map_eq_some_iff.1 hordered
  refine ⟨_, Manifest.parse_eq_ok _ hd, ?_⟩
  rintro ⟨m', hm', -⟩
  rw [← Document.sections_of_pairwise (of_decide_eq_true hpairwise),
    Option.isNone_iff_eq_none] at hnone
  rw [Manifest.parse, Manifest.text, Document.render, Document.script, hnone] at hm'
  cases hm'

end ManifestUpkeep
