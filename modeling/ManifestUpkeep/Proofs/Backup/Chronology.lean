import ManifestUpkeep.Proofs.Backup.Restore

/-!
The ages of backups as their names tell them. The names that are given are read back and keep the
order of time. Of names that others have given this holds where the date and the time of day are
written in full: a text with shorter numbers is read as well, but compared as it is written.
-/
namespace ManifestUpkeep
open Text Calendar

/-! ### Names that are given -/

/-- Two stamps of short years compare as their instants and turns do. -/
theorem Stamp.compare_compact {t u : Int} (ht : Instant.HasShortYear t) (hu : Instant.HasShortYear u)
    (m n : Nat) : (Stamp.timed (Instant.compact t) m).compare (.timed (Instant.compact u) n) =
      (Ord.compare t u).then (Ord.compare m n) := by
  rcases Int.lt_trichotomy t u with h | rfl | h
  · rw [compare_instant_lt ht hu h, Int.compare_eq_lt.2 h]
    rfl
  · rw [Stamp.compare, Std.ReflOrd.compare_self, Std.ReflOrd.compare_self]
  · have hswap := @Std.OrientedCmp.eq_swap _ Stamp.compare _ (.timed (Instant.compact t) m)
      (.timed (Instant.compact u) n)
    rw [hswap, compare_instant_lt hu ht h, Int.compare_eq_gt.2 h]
    rfl

/-- The backup names of a file are read back as what they were made from, and their stamps are in
the order of the instants, then of the turns, behind the plain backup. -/
theorem stamps_of_backupNames {p : Path} {name : String} (hp : p.fileName? = some name) :
    (plainBackup p).fileName?.bind (Stamp.ofName? name) = some .plain ∧
    ∀ t u : Instant, t.HasShortYear → u.HasShortYear → ∀ m < 4294967296, ∀ n < 4294967296,
      (timedBackup p t m).fileName?.bind (Stamp.ofName? name) = some (.timed t.compact m) ∧
      Stamp.plain.compare (.timed t.compact m) = .lt ∧
      ((timedBackup p t m).fileName? = (timedBackup p u n).fileName? ↔ t = u ∧ m = n) ∧
      (Stamp.timed t.compact m).compare (.timed u.compact n) =
        (Ord.compare t u).then (Ord.compare m n) := by
  have hread {t : Instant} {m : Nat} (ht : t.HasShortYear) (hm : m < 4294967296) :
      (timedBackup p t m).fileName?.bind (Stamp.ofName? name) = some (.timed t.compact m) := by
    have hname := fileName?_backupName hp t (m + 1)
    rw [backupName, backupSuffix, ← String.append_assoc, ← String.append_assoc,
      ← String.append_assoc] at hname
    rw [hname, Option.bind_some, ofName?_timed ht hm]
  refine ⟨?_, fun t u ht hu m hm n hn => ⟨hread ht hm, rfl, ?_, Stamp.compare_compact ht hu m n⟩⟩
  · have hname := fileName?_backupName hp 0 0
    rw [backupName, backupSuffix, ← String.append_assoc] at hname
    rw [hname, Option.bind_some, ofName?_eq_plain_iff]
  · constructor
    · intro hsame
      have hstamps := hread ht hm
      rw [hsame, hread hu hn] at hstamps
      have hequal := Stamp.compare_compact ht hu m n
      have hself := @Std.ReflCmp.compare_self _ Stamp.compare _ (.timed u.compact n)
      rw [← Option.some.inj hstamps, hself, eq_comm, Ordering.then_eq_eq] at hequal
      exact ⟨Std.LawfulEqOrd.eq_of_compare hequal.1, Std.LawfulEqOrd.eq_of_compare hequal.2⟩
    · rintro ⟨rfl, rfl⟩
      rfl

theorem stamps_of_backupNames_of_member :
    (Path.mk "crates/a/Cargo.toml").fileName? = some "Cargo.toml" ∧
      (timedBackup ⟨"crates/a/Cargo.toml"⟩ 0 2).fileName?.bind (Stamp.ofName? "Cargo.toml") =
        some (.timed (Instant.compact 0) 2) ∧
      (Stamp.timed (Instant.compact 0) 2).compare (.timed (Instant.compact 951782400) 1) = .lt := by
  have hname : (Path.mk "crates/a/Cargo.toml").fileName? = some "Cargo.toml" := by decide
  have hfirst : Instant.HasShortYear 0 := by
    rw [Instant.HasShortYear]
    decide +kernel
  have hsecond : Instant.HasShortYear 951782400 := by
    rw [Instant.HasShortYear]
    decide +kernel
  obtain ⟨hread, -, -, hcompare⟩ := (stamps_of_backupNames hname).2 0 951782400 hfirst hsecond
    2 (by decide) 1 (by decide)
  exact ⟨hname, hread, hcompare.trans (by decide)⟩

/-! ### Names that others have given -/

/-- A date and a time of day in full: eight digits, the letter `T`, six digits and the letter
`Z`. -/
def IsFull (text : String) : Prop :=
  ∃ date time : List Char, date.length = 8 ∧ time.length = 6 ∧ (∀ c ∈ date ++ time, c.isDigit) ∧
    text.toList = date ++ 'T' :: (time ++ ['Z'])

namespace Moment

/-- The second that a moment falls into, where second 60 is the end of the one before it. -/
def instant (x : Moment) : Int :=
  (x.date.dayNumber - epochDay) * 86400 + (x.hour * 3600 + x.minute * 60 + min x.second 59 : Nat)

/-- Moments are ordered by the second, in which second 60 comes last. -/
def compare (x y : Moment) : Ordering :=
  (Ord.compare x.instant y.instant).then (Ord.compare x.second y.second)

instance : Std.TransCmp compare := by
  have heq : compare = compareLex (compareOn instant) (compareOn second) := rfl
  rw [heq]
  infer_instance

/-- What a text in full denotes. -/
structure IsShort (x : Moment) : Prop where
  year : 0 ≤ x.date.year ∧ x.date.year ≤ 9999
  date : x.date.Exists
  hour : x.hour < 24
  minute : x.minute < 60
  second : x.second ≤ 60

/-- The first of the numbers in which the moments differ is the smaller one. -/
def Before (x y : Moment) : Prop :=
  (x.date.year < y.date.year ∨ x.date.year = y.date.year ∧
    (x.date.month < y.date.month ∨ x.date.month = y.date.month ∧ x.date.day < y.date.day)) ∨
  x.date = y.date ∧ (x.hour < y.hour ∨ x.hour = y.hour ∧
    (x.minute < y.minute ∨ x.minute = y.minute ∧ x.second < y.second))

theorem before_trichotomy (x y : Moment) : x.Before y ∨ x = y ∨ y.Before x := by
  obtain ⟨⟨year, month, day⟩, hour, minute, second⟩ := x
  obtain ⟨⟨year', month', day'⟩, hour', minute', second'⟩ := y
  simp only [Before, Moment.mk.injEq, Date.mk.injEq]
  omega

variable {x y : Moment}

theorem compare_of_before (hx : x.IsShort) (hy : y.IsShort) (h : x.Before y) :
    x.compare y = .lt := by
  have hxhour := hx.hour
  have hxminute := hx.minute
  rw [compare]
  rcases h with hdate | ⟨hdate, htime⟩
  · have hday := Date.dayNumber_lt hx.date hy.date hdate
    have hlt : x.instant < y.instant := by
      simp only [instant]
      omega
    rw [Int.compare_eq_lt.2 hlt]
    rfl
  · have hyminute := hy.minute
    by_cases hlt : x.instant < y.instant
    · rw [Int.compare_eq_lt.2 hlt]
      rfl
    · -- The moments share their second, of which the later one is second 60.
      simp only [instant, hdate] at hlt
      have hsame : x.instant = y.instant ∧ x.second < y.second := by
        simp only [instant, hdate]
        omega
      rw [hsame.1, Std.ReflOrd.compare_self, Nat.compare_eq_lt.2 hsame.2]
      rfl

/-- The text in full. -/
def letters (x : Moment) : List Char :=
  threeNumbers 4 x.date.year.natAbs x.date.month x.date.day ++ 'T' ::
    (threeNumbers 2 x.hour x.minute x.second ++ ['Z'])

theorem letters_lt (hx : x.IsShort) (hy : y.IsShort) (h : x.Before y) : x.letters < y.letters := by
  have hxyear := hx.year
  have hyyear := hy.year
  have hymonth := (Date.dayNumber_bounds hy.date).2.1
  have hyday := Date.day_le hy.date
  have hyminute := hy.minute
  have hysecond := hy.second
  rw [letters, letters]
  rcases h with hdate | ⟨hdate, htime⟩
  · refine append_lt_append ?_ (by simp [length_threeNumbers]) _ _
    apply threeNumbers_lt <;> omega
  · have hyhour := hy.hour
    rw [hdate]
    refine append_left_lt _ (.cons (append_lt_append ?_ (by simp [length_threeNumbers]) _ _))
    apply threeNumbers_lt <;> omega

/-- A text in full is that of the moment that is read from it. -/
theorem of_parse? {text : String} (hfull : IsFull text) (h : parse? text = some x) :
    x.IsShort ∧ text.toList = x.letters := by
  obtain ⟨date, time, hdate, htime, hdigits, htext⟩ := hfull
  obtain ⟨year, hyear, month, hmonth, day, hday, rfl⟩ := exists_threeNumbers 4 hdate
    fun c hc => hdigits c (by simp [hc])
  obtain ⟨hour, hhour, minute, hminute, second, hsecond, rfl⟩ := exists_threeNumbers 2 htime
    fun c hc => hdigits c (by simp [hc])
  rw [parse?_threeNumbers hyear hmonth hday hhour hminute hsecond htext] at h
  split at h
  · next hexists =>
    cases h
    obtain ⟨hdate, hhour, hminute, hsecond⟩ := hexists
    exact ⟨⟨by simp only; omega, hdate, hhour, hminute, hsecond⟩, htext⟩
  · cases h

/-- Texts in full are in the order of the moments. -/
theorem compare_text {a b : String} (ha : IsFull a) (hb : IsFull b) (hx : parse? a = some x)
    (hy : parse? b = some y) : Ord.compare a b = x.compare y := by
  obtain ⟨hxshort, htext⟩ := of_parse? ha hx
  obtain ⟨hyshort, htext'⟩ := of_parse? hb hy
  rcases before_trichotomy x y with h | rfl | h
  · rw [compare_of_before hxshort hyshort h, Stamp.compare_of_toList_lt]
    rw [htext, htext']
    exact letters_lt hxshort hyshort h
  · have hself := @Std.ReflCmp.compare_self _ compare _ x
    rw [hself, String.toList_inj.1 (htext.trans htext'.symm), Std.ReflOrd.compare_self]
  · have hswap := @Std.OrientedCmp.eq_swap _ compare _ x y
    rw [hswap, compare_of_before hyshort hxshort h, Std.OrientedOrd.eq_swap, Stamp.compare_of_toList_lt]
    rw [htext, htext']
    exact letters_lt hyshort hxshort h

/-- A moment is not later than one that it comes before or that it equals. -/
theorem instant_le_of_isLE {turns : Ordering} (h : ((x.compare y).then turns).isLE) :
    x.instant ≤ y.instant := by
  refine Int.not_lt.1 fun hlater => ?_
  rw [compare, Int.compare_eq_gt.2 hlater] at h
  cases h

theorem instant_momentOf (t : Int) : (momentOf t).instant = t := by
  have hday : (Instant.date t).dayNumber = epochDay + t / 86400 := dayNumber_ofDayNumber _
  simp only [momentOf, instant, hday, Instant.secondOfDay]
  omega

end Moment

/-- The texts that are given are in full and denote their instants. -/
theorem isFull_compact {t : Int} (h : Instant.HasShortYear t) :
    IsFull (Instant.compact t) ∧ ∃ x, Moment.parse? (Instant.compact t) = some x ∧ x.instant = t := by
  refine ⟨⟨_, _, ?_, ?_, ?_, Instant.toList_compact h⟩, _, parse?_compact h, Moment.instant_momentOf t⟩
  · simp [length_threeNumbers]
  · simp [length_threeNumbers]
  · intro c hc
    simp only [threeNumbers, List.mem_append] at hc
    rcases hc with ((hc | hc) | hc) | ((hc | hc) | hc)
    all_goals exact isDigit_of_mem_lastDigits hc

/-- The text of an accepted name denotes a moment. -/
theorem exists_moment {file name text : String} {m : Nat}
    (h : Stamp.ofName? file name = some (.timed text m)) : ∃ x, Moment.parse? text = some x := by
  obtain ⟨rest, -, ⟨-, heq⟩ | ⟨stamp, -, seq, -, hmoment, heq⟩⟩ := ofName?_eq_some_iff.1 h
  · cases heq
  · cases heq
    exact Option.isSome_iff_exists.1 hmoment

/-- A backup is found once, with the stamp and the manifest that its path tells. -/
theorem eq_of_mem_findBackups {disk : Disk} {root : Path} {config : Config} {f g : FoundBackup}
    (hf : f ∈ findBackups disk root config) (hg : g ∈ findBackups disk root config)
    (h : f.path = g.path) : f = g := by
  have hmade {f : FoundBackup} (hf : f ∈ findBackups disk root config) :
      (f.path.fileName?.bind (Stamp.ofName? manifestName)).map
        (FoundBackup.mk (f.path.withFileName manifestName) · f.path) = some f := by
    obtain ⟨p, -, hp⟩ := List.mem_filterMap.1 hf
    split at hp
    · cases hp
    · obtain ⟨stamp, hstamp, rfl⟩ := Option.map_eq_some_iff.1 hp
      rw [hstamp, Option.map_some]
  have hfmade := hmade hf
  rw [h, hmade hg] at hfmade
  exact (Option.some.inj hfmade).symm

/-- Of two instants the first suits the wanted age at least as well. -/
def BackupAge.Suits : BackupAge → Int → Int → Prop
  | .oldest, s, t => s ≤ t
  | .latest, s, t => t ≤ s

/-- Stamps in full are in the order of the moments that they denote, then of the turns, so that no
backup is chosen for older than another that denotes an earlier moment, nor for newer than one that
denotes a later moment. -/
theorem stamps_chronological {file a b text text' : String} {m n : Nat}
    (ha : Stamp.ofName? file a = some (.timed text m))
    (hb : Stamp.ofName? file b = some (.timed text' n)) (hfull : IsFull text)
    (hfull' : IsFull text') :
    ∃ x y, Moment.parse? text = some x ∧ Moment.parse? text' = some y ∧
      (Stamp.timed text m).compare (.timed text' n) = (x.compare y).then (Ord.compare m n) ∧
      ∀ (age : BackupAge) (disk : Disk) (root : Path) (config : Config) (manifest : Path),
        ∀ f ∈ findBackups disk root config, ∀ g ∈ findBackups disk root config,
          f.stamp = .timed text m → g.stamp = .timed text' n → g.manifest.same manifest →
          chooseBackup age (findBackups disk root config) manifest = some f.path →
          age.Suits x.instant y.instant := by
  obtain ⟨x, hx⟩ := exists_moment ha
  obtain ⟨y, hy⟩ := exists_moment hb
  have hcompare : (Stamp.timed text m).compare (.timed text' n) =
      (x.compare y).then (Ord.compare m n) := by
    rw [Stamp.compare, Moment.compare_text hfull hfull' hx hy]
  have hcompare' : (Stamp.timed text' n).compare (.timed text m) =
      (y.compare x).then (Ord.compare n m) := by
    rw [Stamp.compare, Moment.compare_text hfull' hfull hy hx]
  refine ⟨x, y, hx, hy, hcompare, ?_⟩
  intro age disk root config manifest f hf g hg hfs hgs hsame hchosen
  obtain ⟨chosen, hmem, -, hpath, hbest⟩ := of_chooseBackup hchosen
  have hprefers := hbest g hg hsame
  rw [eq_of_mem_findBackups hmem hf hpath, hfs, hgs] at hprefers
  cases age with
  | oldest =>
    rw [BackupAge.Prefers, hcompare] at hprefers
    exact Moment.instant_le_of_isLE hprefers
  | latest =>
    rw [BackupAge.Prefers, hcompare'] at hprefers
    exact Moment.instant_le_of_isLE hprefers

theorem stamps_chronological_of_leapSecond :
    Stamp.ofName? "Cargo.toml" "Cargo.toml.20161231T235960Z-2.bak" =
        some (.timed "20161231T235960Z" 2) ∧
      Stamp.ofName? "Cargo.toml" "Cargo.toml.20170101T000000Z.bak" =
        some (.timed "20170101T000000Z" 0) ∧
      ∃ x y, Moment.parse? "20161231T235960Z" = some x ∧ Moment.parse? "20170101T000000Z" = some y ∧
        (Stamp.timed "20161231T235960Z" 2).compare (.timed "20170101T000000Z" 0) =
          (x.compare y).then (Ord.compare 2 0) := by
  have hfirst : Stamp.ofName? "Cargo.toml" "Cargo.toml.20161231T235960Z-2.bak" =
      some (.timed "20161231T235960Z" 2) := by decide +kernel
  have hsecond : Stamp.ofName? "Cargo.toml" "Cargo.toml.20170101T000000Z.bak" =
      some (.timed "20170101T000000Z" 0) := by decide +kernel
  have hfull : IsFull "20161231T235960Z" :=
    ⟨"20161231".toList, "235960".toList, by simp, by simp, by simp, by simp⟩
  have hfull' : IsFull "20170101T000000Z" :=
    ⟨"20170101".toList, "000000".toList, by simp, by simp, by simp, by simp⟩
  obtain ⟨x, y, hx, hy, hcompare, -⟩ := stamps_chronological hfirst hsecond hfull hfull'
  exact ⟨hfirst, hsecond, x, y, hx, hy, hcompare⟩

/-- A text with one digit for the second comes behind a later one. -/
theorem stamps_shortSecond :
    Stamp.ofName? "Cargo.toml" "Cargo.toml.20261019T08305Z.bak" =
        some (.timed "20261019T08305Z" 0) ∧
      Stamp.ofName? "Cargo.toml" "Cargo.toml.20261019T083010Z.bak" =
        some (.timed "20261019T083010Z" 0) ∧
      (Stamp.timed "20261019T083010Z" 0).compare (.timed "20261019T08305Z" 0) = .lt ∧
      ((Moment.parse? "20261019T08305Z").map Moment.second,
        (Moment.parse? "20261019T083010Z").map Moment.second) = (some 5, some 10) := by
  decide +kernel

end ManifestUpkeep
