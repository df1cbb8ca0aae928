import Mathlib.Data.String.Basic
import ManifestUpkeep.Proofs.FileTree.Directories
import ManifestUpkeep.Proofs.FileTree.Renaming
import ManifestUpkeep.SyntaxPage

/-!
The files of the pages. They are written one after the other, so a file holds the last of the pages
whose paths lead to it. Where the names of the categories lead to places of their own in the directory,
each page is in its own file there and nothing outside of it is written to.
-/
namespace ManifestUpkeep
open Disk

/-! ### The order of the categories -/

/-- The categories stand in the order of their names, each of them once. -/
def TokenTable.Ascending (table : TokenTable) : Prop := table.Pairwise (·.1 < ·.1)

instance (table : TokenTable) : Decidable table.Ascending :=
  inferInstanceAs (Decidable (List.Pairwise ..))

namespace TokenTable

variable {table : TokenTable} {name : String} {tokens : List TokenEntry}

theorem fst_of_mem_enter {entry : String × List TokenEntry} (h : entry ∈ enter name tokens table) :
    entry.1 = name ∨ entry ∈ table := by
  induction table with
  | nil => exact .inl (congrArg Prod.fst (List.mem_singleton.1 h))
  | cons first rest ih =>
    unfold enter at h
    split at h
    · rcases List.mem_cons.1 h with rfl | h
      · exact .inl rfl
      · exact .inr (List.mem_cons_of_mem _ h)
    · split at h
      · rcases List.mem_cons.1 h with rfl | h
        · exact .inl rfl
        · exact .inr h
      · rcases List.mem_cons.1 h with rfl | h
        · exact .inr (List.mem_cons_self ..)
        · exact (ih h).imp_right (List.mem_cons_of_mem _)

theorem Ascending.enter (h : table.Ascending) : (enter name tokens table).Ascending := by
  induction table with
  | nil => exact List.pairwise_singleton ..
  | cons first rest ih =>
    obtain ⟨hfirst, hrest⟩ := List.pairwise_cons.1 h
    unfold TokenTable.enter
    split
    · next heq => exact List.pairwise_cons.2 ⟨heq ▸ hfirst, hrest⟩
    · next hne =>
      split
      · next hlt =>
        refine List.pairwise_cons.2 ⟨fun entry hentry => ?_, h⟩
        rcases List.mem_cons.1 hentry with rfl | hentry
        · exact hlt
        · exact lt_trans hlt (hfirst entry hentry)
      · next hge =>
        refine List.pairwise_cons.2 ⟨fun entry hentry => ?_, ih hrest⟩
        rcases fst_of_mem_enter hentry with heq | hentry
        · rw [heq]
          exact lt_of_le_of_ne (not_lt.1 hge) (Ne.symm hne)
        · exact hfirst entry hentry

/-- The categories of every table that is read are in order. -/
theorem ascending_of_load {disk : Disk} {path : Path} (h : load disk path = .ok table) :
    table.Ascending := by
  have hentered (categories : List (String × List TokenEntry)) (start : TokenTable)
      (hstart : start.Ascending) : (categories.foldl (fun table category =>
        TokenTable.enter category.1 category.2 table) start).Ascending := by
    induction categories generalizing start with
    | nil => exact hstart
    | cons first rest ih => exact ih _ hstart.enter
  unfold load at h
  split at h
  · cases h
  · split at h
    · next hjson =>
      cases h
      obtain ⟨json, -, hjson⟩ := Option.bind_eq_some_iff.1 hjson
      cases json with
      | object members =>
        obtain ⟨categories, -, hjson⟩ := Option.bind_eq_some_iff.1 hjson
        cases hjson
        exact hentered categories [] List.Pairwise.nil
      | _ => cases hjson
    · cases h

end TokenTable

/-! ### The paths of the pages -/

/-- The place of a category's page below the directory of the pages, if its name does not lead out of
it. -/
def pagePlace? (name : String) : Option Location :=
  if (Path.mk (name ++ ".md")).isAbsolute then none
  else placeBelow? [] (Path.mk (name ++ ".md")).names

theorem names_page_ne_nil (name : String) : (Path.mk (name ++ ".md")).names ≠ [] := by
  have hpoint : '.' ∈ (Path.mk (name ++ ".md")).text.toList := by simp [String.toList_append]
  obtain ⟨piece, hpiece, -⟩ := (Path.mem_text_iff (by decide)).1 hpoint
  exact List.ne_nil_of_mem hpiece

/-- The page of a category is at its place in the directory of the pages. -/
theorem locate_pagePath {d : Disk} {out : Path} {name : String} {place l : Location}
    (hlinks : d.LinkFreeBelow out) (hplace : pagePlace? name = some place)
    (h : d.locate true (pagePath out name) = .ok l) : ∃ dir, d.Opens out dir ∧ l = place ++ dir := by
  unfold pagePlace? at hplace
  split at hplace
  · cases hplace
  · next hrelative =>
    refine locate_join_below hlinks (by simpa using hrelative) (names_page_ne_nil name) ?_ hplace h
    simp [String.toList_append]

/-! ### Pages that are written one after the other -/

/-- The second disk is the first one with the pages of a table. Where the paths of several pages lead to
one place, the last of them is there. -/
structure WritesPages (out : Path) (table : TokenTable) (d e : Disk) : Prop where
  cwd : e.cwd = d.cwd
  ways : d.tree.KeepsWays e.tree
  located : ∀ entry ∈ table, ∃ l, e.locate true (pagePath out entry.1) = .ok l
  last : ∀ front entry back l, table = front ++ entry :: back →
    e.locate true (pagePath out entry.1) = .ok l →
    (∀ later ∈ back, e.locate true (pagePath out later.1) ≠ .ok l) →
    ∃ x, e.tree.get? l = some (.file (categoryPage entry.1 entry.2).toUTF8 x)
  others : ∀ l, (∀ entry ∈ table, e.locate true (pagePath out entry.1) ≠ .ok l) →
    e.tree.get? l = d.tree.get? l

namespace WritesPages

variable {out : Path} {name : String} {tokens : List TokenEntry} {rest : TokenTable}
  {d mid e : Disk}

/-- One more page is written before the others. -/
theorem cons (hwrite : d.write (pagePath out name) (categoryPage name tokens).toUTF8 = .ok mid)
    (h : WritesPages out rest mid e) : WritesPages out ((name, tokens) :: rest) d e := by
  obtain ⟨l₀, x, hl₀, hputs⟩ := puts_of_write hwrite
  have hlink := not_link_of_locate hl₀
  have hways := (hputs.keepsWays hlink).trans h.ways
  have hpage : e.locate true (pagePath out name) = .ok l₀ :=
    locate_of_keepsWays hways (h.cwd.trans hputs.cwd) hlink hl₀
  refine ⟨h.cwd.trans hputs.cwd, hways, ?_, ?_, ?_⟩
  · intro entry hentry
    rcases List.mem_cons.1 hentry with rfl | hentry
    · exact ⟨l₀, hpage⟩
    · exact h.located entry hentry
  · intro front entry back l hsplit hl hback
    cases front with
    | nil =>
      -- No later page takes the place of the first one.
      obtain ⟨rfl, rfl⟩ := List.cons.inj hsplit
      cases hpage.symm.trans hl
      exact ⟨x, (h.others l₀ hback).trans hputs.node⟩
    | cons first front => exact h.last front entry back l (List.cons.inj hsplit).2 hl hback
  · intro l hl
    have hne : l ≠ l₀ := by
      rintro rfl
      exact hl _ (List.mem_cons_self ..) hpage
    exact (h.others l fun entry hentry => hl entry (List.mem_cons_of_mem _ hentry)).trans
      (hputs.others l hne)

/-- A page stays if no other one is written to its place. -/
theorem page_of_apart {table : TokenTable} (h : WritesPages out table d e)
    (hapart : (table.map fun entry => e.locate true (pagePath out entry.1)).Nodup)
    {entry : String × List TokenEntry} (hentry : entry ∈ table) {l : Location}
    (hl : e.locate true (pagePath out entry.1) = .ok l) :
    ∃ x, e.tree.get? l = some (.file (categoryPage entry.1 entry.2).toUTF8 x) := by
  obtain ⟨front, back, rfl⟩ := List.append_of_mem hentry
  refine h.last front entry back l rfl hl fun later hlater hsame => ?_
  rw [List.map_append, List.map_cons] at hapart
  have hnodup := (List.nodup_append.1 hapart).2.1
  apply (List.nodup_cons.1 hnodup).1
  rw [hl, ← hsame]
  exact List.mem_map_of_mem hlater

end WritesPages

/-- All pages are written if none of them fails, and their paths are returned in the order of the
table. -/
theorem writesPages_of_writeEach {out : Path} {table : TokenTable} {d : Disk}
    {before written : List Path} (h : (writeEach out table d before).result = .ok written) :
    written = before ++ table.map (fun entry => pagePath out entry.1) ∧
      WritesPages out table d (writeEach out table d before).disk := by
  induction table generalizing d before with
  | nil =>
    cases h
    refine ⟨by simp, rfl, .refl d.tree, by simp, ?_, fun _ _ => rfl⟩
    intro front entry back l hsplit
    simp at hsplit
  | cons first rest ih =>
    obtain ⟨name, tokens⟩ := first
    unfold writeEach at h ⊢
    cases hwrite : d.write (pagePath out name) (categoryPage name tokens).toUTF8 with
    | error fault =>
      simp only [hwrite] at h
      cases h
    | ok mid =>
      simp only [hwrite] at h ⊢
      obtain ⟨hpaths, hpages⟩ := ih h
      exact ⟨by simp [hpaths], hpages.cons hwrite⟩

/-! ### A page for every category -/

/-- All pages of a table are in the directory, each in a file of its own, and nothing outside has
changed but that directories have been made on the way to it. -/
structure TokenTable.Published (table : TokenTable) (out : Path) (d e : Disk) (written : List Path) :
    Prop where
  paths : written = table.map fun entry => pagePath out entry.1
  holds : ∀ entry ∈ table,
    e.readBytes (pagePath out entry.1) = .ok (categoryPage entry.1 entry.2).toUTF8
  inside : ∀ entry ∈ table, ∃ dir l, e.Opens out dir ∧
    e.locate true (pagePath out entry.1) = .ok l ∧ dir <:+ l ∧ l ≠ dir
  apart : (table.map fun entry => e.locate true (pagePath out entry.1)).Nodup
  outside : ∀ l, (∀ dir, e.Opens out dir → ¬dir <:+ l) → e.tree.get? l = d.tree.get? l ∨
    d.tree.get? l = none ∧ e.tree.get? l = some .directory

section Published

variable {table : TokenTable} {out : Path} {disk start e : Disk} {written : List Path}
  {entry : String × List TokenEntry}

/-- Each page that has been written is at its place in the directory. -/
theorem WritesPages.exists_place (h : WritesPages out table start e) (hlinks : e.LinkFreeBelow out)
    (hplaces : ∀ entry ∈ table, (pagePlace? entry.1).isSome) (hentry : entry ∈ table) :
    ∃ place dir, pagePlace? entry.1 = some place ∧ e.Opens out dir ∧
      e.locate true (pagePath out entry.1) = .ok (place ++ dir) := by
  obtain ⟨place, hplace⟩ := Option.isSome_iff_exists.1 (hplaces entry hentry)
  obtain ⟨l, hl⟩ := h.located entry hentry
  obtain ⟨dir, hdir, rfl⟩ := locate_pagePath hlinks hplace hl
  exact ⟨place, dir, hplace, hdir, hl⟩

/-- Different places are different files, since the directory is one. -/
theorem WritesPages.apart (h : WritesPages out table start e) (hlinks : e.LinkFreeBelow out)
    (hplaces : ∀ entry ∈ table, (pagePlace? entry.1).isSome) (hordered : table.Ascending)
    (hdifferent : ∀ a ∈ table, ∀ b ∈ table, pagePlace? a.1 = pagePlace? b.1 → a.1 = b.1) :
    (table.map fun entry => e.locate true (pagePath out entry.1)).Nodup := by
  rw [List.Nodup, List.pairwise_map]
  refine hordered.imp_of_mem fun {a b} ha hb hlt hsame => ?_
  obtain ⟨place, dir, hplace, hdir, hl⟩ := h.exists_place hlinks hplaces ha
  obtain ⟨place', dir', hplace', hdir', hl'⟩ := h.exists_place hlinks hplaces hb
  cases hdir.unique hdir'
  have heq : place = place' := by simpa [hl, hl'] using hsame
  have hname : a.1 = b.1 := hdifferent a ha b hb (by rw [hplace, hplace', heq])
  exact absurd hname (ne_of_lt hlt)

theorem WritesPages.published (h : WritesPages out table start e) (hmade : disk.AddsDirectories start)
    (hlinks : e.LinkFreeBelow out) (hplaces : ∀ entry ∈ table, (pagePlace? entry.1).isSome)
    (hapart : (table.map fun entry => e.locate true (pagePath out entry.1)).Nodup) :
    table.Published out disk e (table.map fun entry => pagePath out entry.1) where
  paths := rfl
  holds entry hentry := by
    obtain ⟨place, dir, -, -, hl⟩ := h.exists_place hlinks hplaces hentry
    obtain ⟨x, hx⟩ := h.page_of_apart hapart hentry hl
    exact readBytes_of_file hl hx
  inside entry hentry := by
    obtain ⟨place, dir, -, hdir, hl⟩ := h.exists_place hlinks hplaces hentry
    obtain ⟨x, hx⟩ := h.page_of_apart hapart hentry hl
    refine ⟨dir, place ++ dir, hdir, hl, List.suffix_append .., fun hsame => ?_⟩
    simp [hsame, hdir.2] at hx
  apart := hapart
  outside l hl := by
    -- No page is outside, so there is nothing new there but what was made before the pages.
    have hother : e.tree.get? l = start.tree.get? l := by
      refine h.others l fun entry hentry hpage => ?_
      obtain ⟨place, dir, -, hdir, hplace⟩ := h.exists_place hlinks hplaces hentry
      cases hplace.symm.trans hpage
      exact hl dir hdir (List.suffix_append ..)
    rw [hother]
    exact hmade.node l

end Published

namespace TokenTable

/-- Where the names of the categories lead to different places in the directory and no link there leads
elsewhere, every category gets its own page. -/
theorem writePages_published {table : TokenTable} {out : Path} {disk : Disk} {written : List Path}
    (hordered : table.Ascending) (hplaces : ∀ entry ∈ table, (pagePlace? entry.1).isSome)
    (hdifferent : ∀ a ∈ table, ∀ b ∈ table, pagePlace? a.1 = pagePlace? b.1 → a.1 = b.1)
    (hok : (table.writePages disk out).result = .ok written)
    (hlinks : (table.writePages disk out).disk.LinkFreeBelow out) :
    table.Published out disk (table.writePages disk out).disk written := by
  rw [writePages] at hok hlinks ⊢
  cases hstart : disk.makeDirectories out with
  | error fault => simp [hstart] at hok
  | ok start =>
    simp only [hstart] at hok hlinks ⊢
    obtain ⟨rfl, hpages⟩ := writesPages_of_writeEach hok
    rw [List.nil_append]
    have hapart := hpages.apart hlinks hplaces hordered hdifferent
    exact hpages.published (addsDirectories_of_makeDirectories hstart) hlinks hplaces hapart

/-- A table with a name that looks like the directory above, one that leads there and back, and one for
a page further down. -/
def spreadTable : TokenTable :=
  [("..", []), ("more/../b", []), ("more/words", [⟨"fn", "Function"⟩])]

/-- A directory for pages behind a link, with an older page in it, and a file outside of it that has the
name of a page. -/
def linkedPages : Disk where
  tree := {
    nodes := [(["pages"], .link ⟨"store/syntax"⟩), (["store"], .directory),
      (["syntax", "store"], .directory), (["more", "syntax", "store"], .directory),
      (["b.md", "syntax", "store"], .file "old\n".toUTF8 true), (["b.md"], .file "mine\n".toUTF8 false),
      (["tokens.json"], .file ("\x7b\"more/words\": [[\"fn\", \"Function\"]], " ++
        "\"more/../b\": [], \"..\": []\x7d").toUTF8 false)]
    nodup := by decide
    closed := by simp }
  cwd := []

theorem writePages_published_of_linkedPages : load linkedPages ⟨"tokens.json"⟩ = .ok spreadTable ∧
    ∃ written, (spreadTable.writePages linkedPages ⟨"pages"⟩).result = .ok written ∧
      spreadTable.Published ⟨"pages"⟩ linkedPages
        (spreadTable.writePages linkedPages ⟨"pages"⟩).disk written := by
  have hload : load linkedPages ⟨"tokens.json"⟩ = .ok spreadTable := by decide +kernel
  have hok : (spreadTable.writePages linkedPages ⟨"pages"⟩).result =
      .ok [⟨"pages/...md"⟩, ⟨"pages/more/../b.md"⟩, ⟨"pages/more/words.md"⟩] := by
    decide +kernel
  have hopens : (spreadTable.writePages linkedPages ⟨"pages"⟩).disk.Opens ⟨"pages"⟩
      ["syntax", "store"] :=
    ⟨by decide +kernel, by decide +kernel⟩
  refine ⟨hload, _, hok, ?_⟩
  exact writePages_published (ascending_of_load hload) (by decide +kernel) (by decide +kernel) hok
    (linkFreeBelow_of_nodes hopens (by decide +kernel))

/-- Two names of one file, the second without a point in front. -/
def pointedTable : TokenTable :=
  [("./a", [⟨"=>", "Match arm"⟩]), ("a", [⟨"fn", "Declares a function"⟩])]

/-- The page of the second category takes the place of the first one, and no fault is reported. -/
theorem not_published_pointedTable : ∃ written, pointedTable.Ascending ∧
    (pointedTable.writePages ⟨.empty, []⟩ ⟨"docs"⟩).result = .ok written ∧
    (pointedTable.writePages ⟨.empty, []⟩ ⟨"docs"⟩).disk.readBytes (pagePath ⟨"docs"⟩ "./a") =
      .ok (categoryPage "a" [⟨"fn", "Declares a function"⟩]).toUTF8 ∧
    ¬pointedTable.Published ⟨"docs"⟩ ⟨.empty, []⟩
      (pointedTable.writePages ⟨.empty, []⟩ ⟨"docs"⟩).disk written := by
  refine ⟨[⟨"docs/./a.md"⟩, ⟨"docs/a.md"⟩], by decide, by decide +kernel, by decide +kernel, fun h => ?_⟩
  exact absurd h.apart (by decide +kernel)

end TokenTable

end ManifestUpkeep
