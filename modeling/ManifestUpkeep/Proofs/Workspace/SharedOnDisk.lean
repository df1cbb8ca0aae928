import ManifestUpkeep.Proofs.Workspace.Rehoisting

/-!
The versions that a hoist has taken from the members, on the disk. Whatever inherits from the workspace
after a hoist has an entry in the shared table of the root manifest as it is loaded again, and what the
hoist has added there carries the version that it reports. Only where the workspace is a table between
braces that had no shared table is nothing of this written.
-/
namespace ManifestUpkeep
open Toml Calendar

/-! ### The shared table in memory -/

section Memory

variable {root root' : Manifest} {members : List Manifest} {h : Hoist}

/-- The shared table has every version that the hoist reports. -/
theorem sharedEntry_of_added (hread : ∀ m ∈ members, m.IsRead)
    (hok : hoistManifests (root :: members) = .ok h) (hhead : h.manifests.head? = some root')
    {name version : String} (hadded : (name, version) ∈ h.added) :
    root'.shared?.bind (Entries.get? name) = some (.text version) := by
  obtain ⟨_, hhead', hshared, -, hascending, hiff⟩ := hoistManifests_root hread hok
  cases hhead.symm.trans hhead'
  have hnew : Entries.get? name (root.shared?.getD []) = none :=
    Entries.get?_eq_none_iff.2 ((hiff name version).1 hadded).1
  have hnodup : (Entries.names (sharedEntries h.added)).Nodup := by
    rw [names_sharedEntries]
    refine hascending.imp ?_
    rintro a _ hlt rfl
    exact String.lt_irrefl a hlt
  have hmem : (({ name } : Key), Item.text version) ∈ sharedEntries h.added :=
    List.mem_map.2 ⟨_, hadded, rfl⟩
  rw [hshared, Option.bind_some, Entries.get?_append, hnew, Option.none_or]
  exact Entries.get?_of_mem hnodup hmem

/-- What a member offers is in the shared table before the hoist, or it is added. -/
theorem shared_or_added (hread : ∀ m ∈ root :: members, m.IsRead)
    (hok : hoistManifests (root :: members) = .ok h) {index : Nat} {s : Section} {name : String}
    (href : (index, s, name) ∈ newReferences (root :: members) h.manifests) :
    (root.shared?.bind (Entries.get? name)).isSome ∨ ∃ version, (name, version) ∈ h.added := by
  obtain ⟨-, -, -, -, -, hiff⟩ :=
    hoistManifests_root (fun m hm => hread m (List.mem_cons_of_mem _ hm)) hok
  obtain ⟨m, hi, hget, hoffer⟩ := (mem_newReferences_iff_offer (distinct_members hread) hok).1 href
  obtain ⟨version, hversion⟩ := Option.isSome_iff_exists.1 hoffer
  have hin : version ∈ offersOf (root :: members) name := by
    refine List.mem_flatMap.2 ⟨m, mem_drop_of_getElem? hi hget, ?_⟩
    exact List.mem_filterMap.2 ⟨s, by cases s <;> simp [Section.all], hversion⟩
  by_cases hold : name ∈ Entries.names (root.shared?.getD [])
  · left
    have hsome := Entries.get?_isSome_iff.2 hold
    cases hshared : root.shared? with
    | none => simp [hshared] at hsome
    | some shared => simpa [hshared] using hsome
  · right
    cases hoffers : offersOf (root :: members) name with
    | nil => simp [hoffers] at hin
    | cons first rest => exact ⟨first, (hiff name first).2 ⟨hold, by rw [hoffers]; rfl⟩⟩

/-- What was in the shared table before the hoist is in it afterwards. -/
theorem sharedEntry_kept (hread : ∀ m ∈ members, m.IsRead)
    (hok : hoistManifests (root :: members) = .ok h) (hhead : h.manifests.head? = some root')
    {name : String} (hold : (root.shared?.bind (Entries.get? name)).isSome) :
    (root'.shared?.bind (Entries.get? name)).isSome := by
  obtain ⟨_, hhead', hshared, -⟩ := hoistManifests_root hread hok
  cases hhead.symm.trans hhead'
  cases hbefore : root.shared? with
  | none => simp [hbefore] at hold
  | some shared =>
    rw [hbefore, Option.bind_some] at hold
    rw [hshared, hbefore, Option.bind_some, Option.getD_some, Entries.get?_append,
      Option.isSome_or, hold, Bool.true_or]

end Memory

/-! ### The shared table on the disk -/

/-- What an entry of the shared table says is read again. -/
theorem sharedEntry_reread {m n : Manifest} (hm : m.document.Legible)
    (hparse : Document.parse? m.text = some n.document) (name : String) :
    (n.shared?.bind (Entries.get? name)).map Item.data =
      (m.shared?.bind (Entries.get? name)).map Item.data := by
  rw [Manifest.sharedEntry_data, Manifest.sharedEntry_data, hm.parse?_render.2 _ hparse]

section Disk

variable {disk after : Disk} {root : Path} {config : Config} {w : Workspace} {h : Hoist}
  {first again : Manifest} {members : List Manifest}

/-- The root that is loaded again says in its shared table what the root in memory says there. -/
theorem Hoist.OfProject.sharedEntry_reloaded (hp : h.OfProject disk root config w)
    (hafter : Rewritten disk after h.toWrite) (hmanifests : w.manifests = first :: members)
    (hshown : ¬first.HidesShared) (hagain : Manifest.load after first.path = .ok again) :
    (∀ name version, (name, version) ∈ h.added →
      ∃ item, again.shared?.bind (Entries.get? name) = some item ∧ item.text? = some version) ∧
    ∀ index s name, (index, s, name) ∈ newReferences w.manifests h.manifests →
      ∃ item, again.shared?.bind (Entries.get? name) = some item := by
  have hread := hp.read
  have hhoist := hp.hoist
  rw [hmanifests] at hread hhoist
  have hmembers : ∀ m ∈ members, m.IsRead := fun m hm => hread m (List.mem_cons_of_mem _ hm)
  obtain ⟨root', hhead, -⟩ := hoistManifests_root hmembers hhoist
  have hget : w.manifests[0]? = some first := by rw [hmanifests]; rfl
  have hget' : h.manifests[0]? = some root' := List.head?_eq_getElem?.symm.trans hhead
  rw [hmanifests]
  rw [Manifest.load] at hagain
  rcases hp.readText hafter hget hget' with ⟨-, htext⟩ | ⟨hnot, htext⟩
  · rw [htext] at hagain
    have hlegible := hoistManifests_legible (fun m hm => (hread m hm).legible) hshown hhoist root'
      (List.mem_of_head? hhead)
    have hentry (name : String) := sharedEntry_reread hlegible (Manifest.document_of_parse hagain) name
    have hadded : ∀ name version, (name, version) ∈ h.added →
        ∃ item, again.shared?.bind (Entries.get? name) = some item ∧ item.text? = some version := by
      intro name version hin
      have hdata := hentry name
      rw [sharedEntry_of_added hmembers hhoist hhead hin, Option.map_some] at hdata
      obtain ⟨item, hitem, hdata⟩ := Option.map_eq_some_iff.1 hdata
      refine ⟨item, hitem, ?_⟩
      rw [Item.text?_eq_data, hdata]
      rfl
    refine ⟨hadded, fun index s name href => ?_⟩
    rcases shared_or_added hread hhoist href with hold | ⟨version, hin⟩
    · have hkept := sharedEntry_kept hmembers hhoist hhead hold
      rw [← Option.isSome_map (f := Item.data), ← hentry, Option.isSome_map] at hkept
      exact Option.isSome_iff_exists.1 hkept
    · obtain ⟨item, hitem, -⟩ := hadded name version hin
      exact ⟨item, hitem⟩
  · -- nothing has been added, and the root is what it was
    have hold := load_of_mem hp.load first (List.mem_of_getElem? hget)
    rw [htext, ← Manifest.load, hold] at hagain
    cases hagain
    have hnone : h.added = [] := by
      by_contra hne
      exact hnot (.inl ⟨rfl, by simpa [Hoist.rootChanged] using hne⟩)
    rw [hnone]
    refine ⟨(fun name version hin => by cases hin), fun index s name href => ?_⟩
    rcases shared_or_added hread hhoist href with hsome | ⟨version, hin⟩
    · exact Option.isSome_iff_exists.1 hsome
    · rw [hnone] at hin
      cases hin

/-- Where the workspace hides the shared table, the root that is loaded again has none. -/
theorem Hoist.OfProject.hidden_reloaded (hp : h.OfProject disk root config w)
    (hafter : Rewritten disk after h.toWrite) (hmanifests : w.manifests = first :: members)
    (hhides : first.HidesShared) (hagain : Manifest.load after first.path = .ok again) :
    again.shared? = none := by
  have hread := hp.read
  have hhoist := hp.hoist
  rw [hmanifests] at hread hhoist
  obtain ⟨root', hhead, -, heq, -⟩ :=
    hoistManifests_root (fun m hm => hread m (List.mem_cons_of_mem _ hm)) hhoist
  have hget : w.manifests[0]? = some first := by rw [hmanifests]; rfl
  have hget' : h.manifests[0]? = some root' := List.head?_eq_getElem?.symm.trans hhead
  rw [Manifest.load] at hagain
  rcases hp.readText hafter hget hget' with ⟨-, htext⟩ | ⟨-, htext⟩
  · rw [htext, heq, hhides.text_withShared] at hagain
    exact (hhides.reread (hread first (by simp)).legible (Manifest.document_of_parse hagain)).shared?
  · have hold := load_of_mem hp.load first (List.mem_of_getElem? hget)
    rw [htext, ← Manifest.load, hold] at hagain
    cases hagain
    exact hhides.shared?

end Disk

/-- A hoist loses no version. If all manifests that it has written are in order, the project can be
loaded again. The root that is loaded again has a shared entry for every declaration that inherits from
the workspace since then, and with the version that is reported for those that have been added; unless
its workspace is a table between braces that had no shared table. -/
theorem hoist_keepsVersions {disk : Disk} {root : Path} {config : Config} {w : Workspace} {h : Hoist}
    {now : Instant} {report : HoistReport} (habsolute : root.isAbsolute)
    (hnames : disk.tree.NamesProper) (hlinks : disk.tree.LinkFree)
    (hload : Workspace.load disk root config = .ok w) (hhoist : hoistManifests w.manifests = .ok h)
    (hok : (w.hoist disk now false).2.result = .ok report) {after : Disk}
    (hafter : (w.hoist disk now false).2.disk = after) :
    ((∀ m ∈ h.toWrite, m.document.InOrder) → ∃ w', Workspace.load after root config = .ok w') ∧
    ((∀ m ∈ w.manifests.head?, ¬m.HidesShared) → ∀ again,
      Manifest.load after (root.child manifestName) = .ok again →
      (∀ index s name,
        (index, s, name) ∈ newReferences w.manifests (w.hoist disk now false).1.manifests →
          ∃ item, again.shared?.bind (Entries.get? name) = some item) ∧
      ∀ name version, (name, version) ∈ report.added →
        ∃ item, again.shared?.bind (Entries.get? name) = some item ∧ item.text? = some version) := by
  have hp : h.OfProject disk root config w := ⟨habsolute, hnames, hlinks, hload, hhoist⟩
  have hrewritten := hp.rewritten hok
  rw [hafter] at hrewritten
  refine ⟨hp.exists_reload hrewritten, fun hshown again hagain => ?_⟩
  obtain ⟨h', hh', hleft, hadded, -⟩ := Workspace.saved_of_hoist hok
  cases hhoist.symm.trans hh'
  obtain ⟨first, members, hmanifests, hpath, -⟩ := Workspace.exists_manifests_of_load hload
  rw [hmanifests] at hshown
  obtain ⟨hversions, hreferences⟩ := hp.sharedEntry_reloaded hrewritten hmanifests
    (hshown first rfl) (hpath ▸ hagain)
  rw [hleft, hadded]
  exact ⟨hreferences, hversions⟩

theorem hoist_keepsVersions_of_rootAndMember :
    ∃ root member h report w' again, Workspace.load rootAndMember ⟨"/w"⟩ {} =
        .ok ⟨⟨"/w"⟩, {}, [root, member]⟩ ∧ hoistManifests [root, member] = .ok h ∧
      ((⟨⟨"/w"⟩, {}, [root, member]⟩ : Workspace).hoist rootAndMember 0 false).2.result =
        .ok report ∧
      Workspace.load ((⟨⟨"/w"⟩, {}, [root, member]⟩ : Workspace).hoist rootAndMember 0 false).2.disk
        ⟨"/w"⟩ {} = .ok w' ∧
      w'.manifests.head? = some again ∧ ("x", "1") ∈ report.added ∧
      ∃ item, again.shared?.bind (Entries.get? "x") = some item ∧ item.text? = some "1" := by
  obtain ⟨root, member, hroot, hmember, hload⟩ := load_rootAndMember
  obtain ⟨h, hhoist, hadded, horder⟩ := hoistManifests_rootAndMember hroot hmember
  obtain ⟨report, hok, -⟩ := hoist_rootAndMember hroot hmember
  have hread : ∀ m ∈ [root, member], m.IsRead := by
    simp only [List.forall_mem_cons]
    exact ⟨.of_parse hroot, .of_parse hmember, by simp⟩
  have hshown : (Manifest.parse ⟨"/w/Cargo.toml"⟩ "[workspace]\n").map
      (fun root => decide ¬root.HidesShared) = .ok true := by decide +kernel
  rw [hroot] at hshown
  obtain ⟨hreloads, hentries⟩ := hoist_keepsVersions (by decide) (namesProper_rootWithMember _ _)
    (linkFree_rootWithMember _ _) hload hhoist hok rfl
  have hsub := toWrite_sublist (distinct_members hread) hhoist
  obtain ⟨w', hw'⟩ := hreloads fun m hm => horder m (hsub.subset hm)
  obtain ⟨again, members, hmanifests, hpath, -⟩ := Workspace.exists_manifests_of_load hw'
  have hagain := load_of_mem hw' again (by simp [hmanifests])
  obtain ⟨h', hh', -, hreport, -⟩ := Workspace.saved_of_hoist hok
  cases hhoist.symm.trans hh'
  have hin : ("x", "1") ∈ report.added := by
    rw [hreport, hadded]
    exact List.mem_singleton_self _
  have hhead : w'.manifests.head? = some again := by rw [hmanifests, List.head?_cons]
  refine ⟨root, member, h, report, w', again, hload, hhoist, hok, hw', hhead, hin, ?_⟩
  have hopen : ∀ m ∈ [root, member].head?, ¬m.HidesShared := by
    simpa using of_decide_eq_true (Except.ok.inj hshown)
  exact (hentries hopen again (hpath ▸ hagain)).2 "x" "1" hin

/-- The workspace is a table between braces, and a member declares a version. -/
def hiddenShared : Disk :=
  rootWithMember "workspace = \x7b members = [\"a\"] \x7d\n".toUTF8
    "[dependencies]\nx = \"1\"\n".toUTF8

/-- The hoist adds the version and makes the member inherit it, but the root that is loaded again has no
shared table. -/
theorem hoist_hiddenShared :
    ∃ root member report again, Workspace.load hiddenShared ⟨"/w"⟩ {} =
        .ok ⟨⟨"/w"⟩, {}, [root, member]⟩ ∧
      ((⟨⟨"/w"⟩, {}, [root, member]⟩ : Workspace).hoist hiddenShared 0 false).2.result =
        .ok report ∧ report.added = [("x", "1")] ∧
      (1, .dependencies, "x") ∈ newReferences [root, member]
        ((⟨⟨"/w"⟩, {}, [root, member]⟩ : Workspace).hoist hiddenShared 0 false).1.manifests ∧
      Manifest.load ((⟨⟨"/w"⟩, {}, [root, member]⟩ : Workspace).hoist hiddenShared 0 false).2.disk
        ⟨"/w/Cargo.toml"⟩ = .ok again ∧ again.shared? = none := by
  obtain ⟨root, hroot⟩ : ∃ root, Manifest.parse ⟨"/w/Cargo.toml"⟩
      "workspace = \x7b members = [\"a\"] \x7d\n" = .ok root := exists_of_isOk (by decide +kernel)
  obtain ⟨member, hmember⟩ : ∃ member, Manifest.parse ⟨"/w/a/Cargo.toml"⟩
      "[dependencies]\nx = \"1\"\n" = .ok member := exists_of_isOk (by decide +kernel)
  have hload : Workspace.load hiddenShared ⟨"/w"⟩ {} = .ok ⟨⟨"/w"⟩, {}, [root, member]⟩ :=
    load_rootWithMember hroot hmember
  have hin : (Manifest.parse ⟨"/w/a/Cargo.toml"⟩ "[dependencies]\nx = \"1\"\n").map
      (occurrencesIn 1) = .ok [⟨1, .dependencies, "x", .plain "1"⟩] := by decide +kernel
  -- the step of the only name, how its manifests are saved, and what is left in the file of the root
  have hstep : ((Manifest.parse ⟨"/w/Cargo.toml"⟩
        "workspace = \x7b members = [\"a\"] \x7d\n").bind fun root =>
      (Manifest.parse ⟨"/w/a/Cargo.toml"⟩ "[dependencies]\nx = \"1\"\n").bind fun member =>
        root.ensureShared.map fun root' =>
          let h := Hoist.step { manifests := [root', member] }
            ("x", [⟨1, .dependencies, "x", .plain "1"⟩])
          let saved := saveAll 0 h.manifests [] hiddenShared
          (h.added, h.inherited.map Occurrence.manifest, h.manifests.length, saved.2.result.isOk,
            decide (root.HidesShared ∧ root.document.InOrder),
            (member.offer? .dependencies "x").isSome)) =
        .ok ([("x", "1")], [1], 2, true, true, true) := by decide +kernel
  rw [hmember] at hin
  rw [hroot, hmember] at hstep
  change root.ensureShared.map _ = _ at hstep
  cases hshared : root.ensureShared with
  | error error =>
    rw [hshared] at hstep
    cases hstep
  | ok root' =>
    rw [hshared] at hstep
    obtain ⟨hadded, hinherited, hlength, hsaved, hhides, hoffer⟩ :
        _ ∧ _ ∧ _ ∧ _ ∧ _ ∧ _ := by simpa only [Prod.mk.injEq] using Except.ok.inj hstep
    obtain ⟨hhides, horder⟩ := of_decide_eq_true hhides
    have hhoist := hoistManifests_of_one hshared (Except.ok.inj hin)
    obtain ⟨report, hok, -⟩ : ∃ report, ((⟨⟨"/w"⟩, {}, [root, member]⟩ : Workspace).hoist
        hiddenShared 0 false).2.result = .ok report ∧ _ :=
      hoist_of_one hshared (Except.ok.inj hin) rfl (by rw [Hoist.rootChanged, hadded]; rfl)
        hinherited hlength hsaved
    generalize Hoist.step { manifests := [root', member] }
      ("x", [⟨1, .dependencies, "x", .plain "1"⟩]) = h at *
    have hread : ∀ m ∈ [root, member], m.IsRead := by
      simp only [List.forall_mem_cons]
      exact ⟨.of_parse hroot, .of_parse hmember, by simp⟩
    have hp : h.OfProject hiddenShared ⟨"/w"⟩ {} ⟨⟨"/w"⟩, {}, [root, member]⟩ :=
      ⟨by decide, namesProper_rootWithMember _ _, linkFree_rootWithMember _ _, hload, hhoist⟩
    obtain ⟨h', hh', hleft, hreport, -⟩ := Workspace.saved_of_hoist hok
    cases hhoist.symm.trans hh'
    obtain ⟨first, hfirst⟩ : ∃ first, h.manifests[0]? = some first :=
      ⟨_, List.getElem?_eq_getElem (by omega)⟩
    obtain ⟨root', hhead, -, heq, -⟩ :=
      hoistManifests_root (fun m hm => hread m (List.mem_cons_of_mem _ hm)) hhoist
    cases hhead.symm.trans (List.head?_eq_getElem?.trans hfirst)
    have hbefore : [root, member][0]? = some root := rfl
    obtain ⟨again, hagain⟩ := hp.exists_load (hp.rewritten hok) hbefore hfirst fun _ => by
      rw [heq]
      exact (hhides.inOrder_withShared _).2 horder
    rw [Manifest.path_of_parse hroot] at hagain
    refine ⟨root, member, report, again, hload, hok, hreport.trans hadded, ?_, hagain, ?_⟩
    · rw [hleft, mem_newReferences_iff_offer (distinct_members hread) hhoist]
      exact ⟨member, le_rfl, rfl, hoffer⟩
    · exact hp.hidden_reloaded (hp.rewritten hok) rfl hhides (Manifest.path_of_parse hroot ▸ hagain)

end ManifestUpkeep
