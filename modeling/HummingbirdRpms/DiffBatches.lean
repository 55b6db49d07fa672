/-
# HummingbirdRpms.DiffBatches — the packages whose diffs are analysed next (`ci/upstream_diff.py`).

`get_batch` sorts the modified packages by what the cache has of them: the analysis of the metadata as it
is, an analysis of other metadata, or none.  The packages of a batch are then saved one by one, each by a
run of `cmd_save` that reads the metadata and the cache again.

**`batches_reach_everything`** says that the two agree: each round takes the first packages off what there
is to analyse, no package is listed in two rounds, and nothing is left exactly from `⌈k / b⌉` rounds on.
-/
import Mathlib
import HummingbirdRpms.Lib.Worklist
import HummingbirdRpms.DiffCache
import HummingbirdRpms.Repo

namespace HummingbirdRpms.DiffBatches

open Lib Lib.Text Lib.Exec Lib.Worklist DiffCache

/-! ## The batch -/

/-- `metadata/*.json`: each record with the stem of its file. -/
structure MetadataDir where
  records : List (Str × PackageMetadata)
  distinct : (records.map (·.1)).Nodup

/-- `sorted(METADATA_DIR.glob('*.json'))` -/
def MetadataDir.sortedFiles (d : MetadataDir) : List (Str × PackageMetadata) :=
  d.records.mergeSort fun f g => decide (f.1 ++ ".json".toList ≤ g.1 ++ ".json".toList)

/-- `load_package_metadata` -/
def MetadataDir.load (d : MetadataDir) (package : Str) : Option PackageMetadata :=
  d.records.lookup package

/-- `get_all_modified_metadata` -/
def getAllModifiedMetadata (d : MetadataDir) : List (Str × PackageMetadata) :=
  d.sortedFiles.filter fun f => f.2.modificationStatus = some .modified

/-- `data.get('sha', '')` -/
def shaOf (data : PackageMetadata) : Str := data.sha.getD []

/-- `cache['packages'][pkg].get('metadata_sha') == sha` -/
def sameSha (e : Value.Entries) (data : PackageMetadata) : Bool :=
  (Value.entry "metadata_sha" e).isStr (shaOf data)

/-- The variables of the loop of `get_batch`. -/
structure Sorting where
  stale : List Str := []
  pending : List Str := []
  cachedCount : Nat := 0
  batchInfo : List (Str × Str) := []

/-- One round of the loop. -/
def Sorting.add (cache : Cache) (s : Sorting) (item : Str × PackageMetadata) : Sorting :=
  match cache.packages item.1 with
  | some e =>
      if sameSha e item.2 then { s with cachedCount := s.cachedCount + 1 }
      else { s with stale := s.stale ++ [item.1], batchInfo := (item.1, "stale".toList) :: s.batchInfo }
  | none => { s with pending := s.pending ++ [item.1], batchInfo := (item.1, "new".toList) :: s.batchInfo }

/-- The second value of `get_batch`. -/
structure BatchInfo where
  batch : List Str
  batchInfo : List (Str × Option Str)
  cachedCount : Nat
  staleCount : Nat
  pendingCount : Nat
  totalModified : Nat

/-- `get_batch` -/
def getBatch (metadata : List (Str × PackageMetadata)) (cache : Cache) (batchSize : Nat) :
    List Str × BatchInfo :=
  let s := metadata.foldl (Sorting.add cache) {}
  let batch := (s.stale ++ s.pending).take batchSize
  let total := s.cachedCount + s.stale.length + s.pending.length
  (batch, { batch := batch
            batchInfo := batch.map fun p => (p, s.batchInfo.lookup p)
            cachedCount := s.cachedCount
            staleCount := s.stale.length
            pendingCount := s.pending.length
            totalModified := total })

/-! ## What the cache has of a package -/

/-- The cache has the analysis of the metadata as it is. -/
def isCached (cache : Cache) (item : Str × PackageMetadata) : Bool :=
  (cache.packages item.1).any fun e => sameSha e item.2

/-- The cache has an analysis of other metadata. -/
def isStale (cache : Cache) (item : Str × PackageMetadata) : Bool :=
  (cache.packages item.1).any fun e => !sameSha e item.2

/-- The cache has no analysis. -/
def isNew (cache : Cache) (item : Str × PackageMetadata) : Bool := (cache.packages item.1).isNone

/-- The packages a cache has an old analysis of. -/
def staleNames (metadata : List (Str × PackageMetadata)) (cache : Cache) : List Str :=
  (metadata.filter (isStale cache)).map (·.1)

/-- The packages a cache does not have. -/
def newNames (metadata : List (Str × PackageMetadata)) (cache : Cache) : List Str :=
  (metadata.filter (isNew cache)).map (·.1)

/-- What there is to analyse. -/
def outstanding (metadata : List (Str × PackageMetadata)) (cache : Cache) : List Str :=
  staleNames metadata cache ++ newNames metadata cache

section

variable {metadata : List (Str × PackageMetadata)} {cache : Cache} {item : Str × PackageMetadata}
  {batchSize : Nat}

theorem standing_cases (cache : Cache) (item : Str × PackageMetadata) :
    (isCached cache item = true ∧ isStale cache item = false ∧ isNew cache item = false) ∨
      (isCached cache item = false ∧ isStale cache item = true ∧ isNew cache item = false) ∨
      (isCached cache item = false ∧ isStale cache item = false ∧ isNew cache item = true) := by
  unfold isCached isStale isNew
  cases cache.packages item.1 with
  | none => exact Or.inr (Or.inr ⟨rfl, rfl, rfl⟩)
  | some e =>
      cases h : sameSha e item.2 with
      | true => exact Or.inl ⟨h, by simp [h], rfl⟩
      | false => exact Or.inr (Or.inl ⟨h, by simp [h], rfl⟩)

/-- The loop sorts the packages by what the cache has of them. -/
theorem foldl_add (s : Sorting) :
    (metadata.foldl (Sorting.add cache) s).stale = s.stale ++ staleNames metadata cache ∧
      (metadata.foldl (Sorting.add cache) s).pending = s.pending ++ newNames metadata cache ∧
      (metadata.foldl (Sorting.add cache) s).cachedCount =
        s.cachedCount + (metadata.filter (isCached cache)).length := by
  induction metadata generalizing s with
  | nil => exact ⟨(List.append_nil _).symm, (List.append_nil _).symm, rfl⟩
  | cons item rest ih =>
      obtain ⟨hstale, hpending, hcached⟩ := ih (s.add cache item)
      rw [List.foldl_cons, hstale, hpending, hcached, staleNames, newNames, staleNames, newNames]
      unfold Sorting.add isCached isStale isNew
      cases hp : cache.packages item.1 with
      | none => simp [hp]
      | some e =>
          cases h : sameSha e item.2 with
          | true => simp [hp, h, Nat.add_comm, Nat.add_assoc]
          | false => simp [hp, h]

theorem getBatch_fst :
    (getBatch metadata cache batchSize).1 = (outstanding metadata cache).take batchSize := by
  obtain ⟨hstale, hpending, -⟩ := @foldl_add metadata cache {}
  show List.take batchSize (_ ++ _) = _
  rw [hstale, hpending]
  rfl

theorem length_filters (metadata : List (Str × PackageMetadata)) (cache : Cache) :
    (metadata.filter (isCached cache)).length + (staleNames metadata cache).length +
      (newNames metadata cache).length = metadata.length := by
  rw [staleNames, newNames, List.length_map, List.length_map]
  induction metadata with
  | nil => rfl
  | cons item rest ih =>
      rcases standing_cases cache item with ⟨hc, hs, hn⟩ | ⟨hc, hs, hn⟩ | ⟨hc, hs, hn⟩ <;>
        simp [hc, hs, hn] <;> omega

end

/-! ## Saving a package -/

/-- The runs of a tool read the metadata of the directory. -/
def ReadsDir (d : MetadataDir) (t : SaveTools) : Prop :=
  ∀ p, t.loadPackageMetadata p = .ok ((d.load p).map fun md => (shaOf md, md.source.getD []))

/-- Packages saved one after the other, each with some classification. -/
inductive Saves (d : MetadataDir) : List Str → CacheFile → CacheFile → Prop
  | none (file : CacheFile) : Saves d [] file file
  | save {t : SaveTools} {p category summary reasoning recommendation : Str} {macros : Bool}
      {jira bug : Option Str} {prs ps : List Str} {file file' file'' : CacheFile} (hdir : ReadsDir d t)
      (h : savedFile t (.full p category summary reasoning recommendation macros jira bug prs) file =
        some file')
      (rest : Saves d ps file' file'') : Saves d (p :: ps) file file''

section

variable {d : MetadataDir} {t : SaveTools} {p category summary reasoning recommendation : Str}
  {macros : Bool} {jira bug : Option Str} {prs saved : List Str} {file file' : CacheFile}
  {item : Str × PackageMetadata}

/-- The cache has the analysis of the record of a package. -/
def UpToDate (d : MetadataDir) (cache : Cache) (p : Str) : Prop :=
  ∃ md e, d.load p = some md ∧ cache.packages p = some e ∧ sameSha e md = true

theorem loadCache_saveCache (now : Str) (cache : Cache) :
    (loadCache (saveCache now cache)).packages = cache.packages := rfl

/-- The entry of a classification has the checksum of the record. -/
theorem sameSha_savedEntry (hdir : ReadsDir d t) {old : Option Value.Entries} {e : Value.Entries}
    (h : savedEntry t (.full p category summary reasoning recommendation macros jira bug prs) old = .ok e) :
    ∃ md, d.load p = some md ∧ sameSha e md = true := by
  rw [savedEntry, hdir, except_bind_ok] at h
  cases hmd : d.load p with
  | none =>
      rw [hmd] at h
      cases h
  | some md =>
      rw [hmd] at h
      obtain ⟨ids, -, h⟩ := except_bind_ok_iff.mp h
      obtain ⟨related, -, h⟩ := except_bind_ok_iff.mp h
      obtain rfl := Except.ok.inj h
      refine ⟨md, rfl, ?_⟩
      show decide (shaOf md = shaOf md) = true
      exact decide_eq_true rfl

/-- A run that saves records the checksum that the next batch compares with. -/
theorem upToDate_savedFile (hdir : ReadsDir d t)
    (h : savedFile t (.full p category summary reasoning recommendation macros jira bug prs) file =
      some file') : UpToDate d (loadCache file') p ∧
        ∀ q, q ≠ p → (loadCache file').packages q = (loadCache file).packages q := by
  obtain ⟨cache', hcache, rfl⟩ := Option.map_eq_some_iff.mp h
  have hok := except_toOption_iff.mp hcache
  obtain ⟨e, hentry, hput⟩ := except_bind_ok_iff.mp hok
  obtain rfl := Except.ok.inj hput
  obtain ⟨md, hmd, hsha⟩ := sameSha_savedEntry hdir hentry
  have hpackages := loadCache_saveCache t.now ((loadCache file).put p e)
  refine ⟨⟨md, e, hmd, ?_, hsha⟩, fun q hq => ?_⟩
  · exact (congrFun hpackages p).trans (put_packages.trans (if_pos rfl))
  · exact (congrFun hpackages q).trans (put_packages.trans (if_neg hq))

/-- A classification without requests can be saved of any package there is a record of. -/
theorem exists_savedFile (hdir : ReadsDir d t) (hp : ∃ md, d.load p = some md) (file : CacheFile) :
    ∃ file', savedFile t (.full p category summary reasoning recommendation macros jira bug []) file =
      some file' := by
  obtain ⟨md, hmd⟩ := hp
  unfold savedFile cmdSave
  rw [savedEntry, hdir, hmd]
  exact ⟨_, rfl⟩

/-- Saves make their packages up to date and leave the others. -/
theorem Saves.packages (h : Saves d saved file file') :
    (∀ p ∈ saved, UpToDate d (loadCache file') p) ∧
      ∀ p, p ∉ saved → (loadCache file').packages p = (loadCache file).packages p := by
  induction h with
  | none file => exact ⟨fun p hp => absurd hp List.not_mem_nil, fun p _ => rfl⟩
  | @save t p category summary reasoning recommendation macros jira bug prs ps file file' file'' hdir hsaved
      rest ih =>
      obtain ⟨hfirst, hothers⟩ := upToDate_savedFile hdir hsaved
      obtain ⟨hall, hkept⟩ := ih
      constructor
      · intro q hq
        rcases List.mem_cons.mp hq with rfl | hq
        · -- a package that is saved again is up to date as of its last save
          by_cases hagain : q ∈ ps
          · exact hall q hagain
          · obtain ⟨md, e, hmd, he, hsha⟩ := hfirst
            exact ⟨md, e, hmd, (hkept q hagain).trans he, hsha⟩
        · exact hall q hq
      · intro q hq
        rw [hkept q (List.not_mem_of_not_mem_cons hq), hothers q (List.ne_of_not_mem_cons hq)]

/-! ## The directory and the modified packages -/

theorem mem_sortedFiles : item ∈ d.sortedFiles ↔ item ∈ d.records := List.mem_mergeSort

theorem nodup_names (d : MetadataDir) : ((getAllModifiedMetadata d).map (·.1)).Nodup := by
  have hsorted : (d.sortedFiles.map (·.1)).Nodup :=
    ((List.mergeSort_perm d.records _).map _).nodup_iff.mpr d.distinct
  exact hsorted.sublist (List.filter_sublist.map _)

theorem load_of_mem (h : item ∈ getAllModifiedMetadata d) : d.load item.1 = some item.2 := by
  have hmem : item ∈ d.records := mem_sortedFiles.mp (List.mem_of_mem_filter h)
  have hdistinct := d.distinct
  unfold MetadataDir.load
  generalize d.records = records at hmem hdistinct
  induction records with
  | nil => cases hmem
  | cons first rest ih =>
      obtain ⟨hfirst, hrest⟩ := List.nodup_cons.mp hdistinct
      rcases List.mem_cons.mp hmem with rfl | hmem
      · exact List.lookup_cons_self
      · have hne : item.1 ≠ first.1 := by
          intro heq
          exact hfirst (List.mem_map.mpr ⟨item, hmem, heq⟩)
        rw [List.lookup_cons, beq_false_of_ne hne]
        exact ih hmem hrest

/-- A package that is up to date is neither stale nor new. -/
theorem isCached_of_upToDate {cache : Cache} (hitem : item ∈ getAllModifiedMetadata d)
    (h : UpToDate d cache item.1) : isCached cache item = true := by
  obtain ⟨md, e, hmd, he, hsha⟩ := h
  obtain rfl := Option.some.inj ((load_of_mem hitem).symm.trans hmd)
  rw [isCached, he]
  exact hsha

/-- What saves leave to analyse. -/
theorem outstanding_saves (h : Saves d saved file file') :
    outstanding (getAllModifiedMetadata d) (loadCache file') =
      (outstanding (getAllModifiedMetadata d) (loadCache file)).filter fun p => p ∉ saved := by
  obtain ⟨hsaved, hkept⟩ := h.packages
  have hstanding : ∀ item ∈ getAllModifiedMetadata d,
      isStale (loadCache file') item = (decide (item.1 ∉ saved) && isStale (loadCache file) item) ∧
        isNew (loadCache file') item = (decide (item.1 ∉ saved) && isNew (loadCache file) item) := by
    intro item hitem
    by_cases hmem : item.1 ∈ saved
    · have hcached := isCached_of_upToDate hitem (hsaved _ hmem)
      rw [decide_eq_false (not_not_intro hmem), Bool.false_and, Bool.false_and]
      rcases standing_cases (loadCache file') item with ⟨-, hs, hn⟩ | ⟨hc, -⟩ | ⟨hc, -⟩
      · exact ⟨hs, hn⟩
      · rw [hc] at hcached; cases hcached
      · rw [hc] at hcached; cases hcached
    · rw [decide_eq_true hmem, Bool.true_and, Bool.true_and, isStale, isStale, isNew, isNew, hkept _ hmem]
      exact ⟨rfl, rfl⟩
  unfold outstanding staleNames newNames
  rw [List.filter_append, List.filter_map, List.filter_map, List.filter_filter, List.filter_filter]
  congr 2
  · exact List.filter_congr fun item hitem => (hstanding item hitem).1
  · exact List.filter_congr fun item hitem => (hstanding item hitem).2

theorem nodup_outstanding (d : MetadataDir) (cache : Cache) :
    (outstanding (getAllModifiedMetadata d) cache).Nodup := by
  have hnames := nodup_names d
  refine List.nodup_append.mpr ⟨hnames.sublist (List.filter_sublist.map _),
    hnames.sublist (List.filter_sublist.map _), ?_⟩
  intro p hstale q hnew heq
  obtain ⟨item, hitem, rfl⟩ := List.mem_map.mp hstale
  obtain ⟨other, hother, rfl⟩ := List.mem_map.mp hnew
  obtain ⟨hitem, hs⟩ := List.mem_filter.mp hitem
  obtain ⟨hother, hn⟩ := List.mem_filter.mp hother
  have hrecord : item.2 = other.2 := by
    apply Option.some.inj
    rw [← load_of_mem hitem, ← load_of_mem hother, heq]
  obtain rfl : item = other := Prod.ext heq hrecord
  rcases standing_cases cache item with ⟨-, hs', -⟩ | ⟨-, -, hn'⟩ | ⟨-, hs', -⟩
  · rw [hs'] at hs; cases hs
  · rw [hn'] at hn; cases hn
  · rw [hs'] at hs; cases hs

end

/-! ## Rounds -/

/-- A round: a batch is prepared and each of its packages is saved, in any order. -/
def Round (d : MetadataDir) (b : Nat) (file : CacheFile) (batch : List Str) (file' : CacheFile) : Prop :=
  batch = (getBatch (getAllModifiedMetadata d) (loadCache file) b).1 ∧
    ∃ saved, (∀ p, p ∈ saved ↔ p ∈ batch) ∧ Saves d saved file file'

section

variable {d : MetadataDir} {b : Nat} {file file' : CacheFile} {batches : List (List Str)}

/-- What there is to analyse for a cache file. -/
def todo (d : MetadataDir) (file : CacheFile) : List Str :=
  outstanding (getAllModifiedMetadata d) (loadCache file)

theorem round_takesBatches (d : MetadataDir) (b : Nat) : TakesBatches (Round d b) (todo d) b := by
  rintro file batch file' ⟨hbatch, saved, hsame, hsaves⟩
  rw [getBatch_fst] at hbatch
  refine ⟨hbatch, ?_⟩
  rw [todo, outstanding_saves hsaves, todo, ← filter_not_mem_take (nodup_outstanding d _) b, ← hbatch]
  exact List.filter_congr fun p _ => by rw [decide_eq_decide, hsame]

theorem mem_todo_load {p : Str} (h : p ∈ todo d file) : ∃ md, d.load p = some md := by
  rcases List.mem_append.mp h with h | h <;> obtain ⟨item, hitem, rfl⟩ := List.mem_map.mp h <;>
    exact ⟨item.2, load_of_mem (List.mem_filter.mp hitem).1⟩

/-- What a run sees of a directory without upstream requests. -/
def plainTools (d : MetadataDir) : SaveTools where
  loadPackageMetadata := fun p => .ok ((d.load p).map fun md => (shaOf md, md.source.getD []))
  getUpstreamPrs := fun _ _ => .ok []
  now := []

theorem exists_saves {ps : List Str} (hps : ∀ p ∈ ps, ∃ md, d.load p = some md) (file : CacheFile) :
    ∃ file', Saves d ps file file' := by
  induction ps generalizing file with
  | nil => exact ⟨file, .none file⟩
  | cons p ps ih =>
      rw [List.forall_mem_cons] at hps
      have hdir : ReadsDir d (plainTools d) := fun p => rfl
      have hsave : ∃ mid, savedFile (plainTools d) (.full p [] [] [] [] false none none []) file = some mid :=
        exists_savedFile hdir hps.1 file
      obtain ⟨mid, hmid⟩ := hsave
      obtain ⟨file', hrest⟩ := ih hps.2 mid
      exact ⟨file', .save hdir hmid hrest⟩

/-- From every cache file a round can be made. -/
theorem exists_round (d : MetadataDir) (b : Nat) (file : CacheFile) :
    ∃ batch file', Round d b file batch file' := by
  have hbatch : ∀ p ∈ (getBatch (getAllModifiedMetadata d) (loadCache file) b).1,
      ∃ md, d.load p = some md := by
    intro p hp
    rw [getBatch_fst] at hp
    exact mem_todo_load (List.mem_of_mem_take hp)
  obtain ⟨file', hsaves⟩ := exists_saves hbatch file
  exact ⟨_, file', rfl, _, fun p => Iff.rfl, hsaves⟩

/-- Nothing is left to analyse exactly when the cache is up to date with every modified package. -/
theorem todo_eq_nil_iff :
    todo d file = [] ↔ ∀ item ∈ getAllModifiedMetadata d, isCached (loadCache file) item = true := by
  rw [todo, outstanding, List.append_eq_nil_iff, staleNames, newNames, List.map_eq_nil_iff,
    List.map_eq_nil_iff, List.filter_eq_nil_iff, List.filter_eq_nil_iff, ← forall₂_and]
  refine forall₂_congr fun item _ => ?_
  rcases standing_cases (loadCache file) item with ⟨hc, hs, hn⟩ | ⟨hc, hs, hn⟩ | ⟨hc, hs, hn⟩ <;>
    simp [hc, hs, hn]

/-! ## The main result -/

/-- What `get_batch` answers: the stale packages before the new ones, each once, and counts that
partition the modified packages. -/
structure ListsInOrder (metadata : List (Str × PackageMetadata)) (cache : Cache) (b : Nat) : Prop where
  batch : (getBatch metadata cache b).1 = (staleNames metadata cache ++ newNames metadata cache).take b
  nodup : (getBatch metadata cache b).1.Nodup
  listed : (getBatch metadata cache b).2.batch = (getBatch metadata cache b).1
  standing : ∀ item ∈ metadata, [isCached cache item, isStale cache item, isNew cache item].count true = 1
  cachedCount : (getBatch metadata cache b).2.cachedCount = metadata.countP (isCached cache)
  staleCount : (getBatch metadata cache b).2.staleCount = metadata.countP (isStale cache)
  pendingCount : (getBatch metadata cache b).2.pendingCount = metadata.countP (isNew cache)
  total : (getBatch metadata cache b).2.totalModified = metadata.length

theorem getBatch_listsInOrder (d : MetadataDir) (cache : Cache) (b : Nat) :
    ListsInOrder (getAllModifiedMetadata d) cache b := by
  obtain ⟨hstale, hpending, hcached⟩ := @foldl_add (getAllModifiedMetadata d) cache {}
  have htotal := length_filters (getAllModifiedMetadata d) cache
  constructor
  · exact getBatch_fst
  · rw [getBatch_fst]
    exact (nodup_outstanding d cache).sublist (List.take_sublist _ _)
  · rfl
  · intro item _
    rcases standing_cases cache item with ⟨hc, hs, hn⟩ | ⟨hc, hs, hn⟩ | ⟨hc, hs, hn⟩ <;>
      rw [hc, hs, hn] <;> rfl
  · rw [List.countP_eq_length_filter]
    exact hcached.trans (Nat.zero_add _)
  · rw [List.countP_eq_length_filter, ← List.length_map (f := (·.1))]
    exact congrArg List.length hstale
  · rw [List.countP_eq_length_filter, ← List.length_map (f := (·.1))]
    exact congrArg List.length hpending
  · rw [← htotal]
    show Sorting.cachedCount _ + List.length _ + List.length _ = _
    rw [hstale, hpending, hcached]
    show 0 + _ + _ + _ = _
    rw [Nat.zero_add]
    rfl

/-- **`batches_reach_everything`** — for every directory of metadata and every cache file, the batch lists
stale packages before new ones, each once, and its counts partition the modified packages.  Rounds of
size `b ≥ 1` can be made for ever; whatever they save, no package is listed in two of them, and the cache
has every modified package as it is exactly from `⌈k / b⌉` rounds on, where `k` packages were stale or new. -/
theorem batches_reach_everything (d : MetadataDir) (file : CacheFile) (hb : 1 ≤ b) :
    ListsInOrder (getAllModifiedMetadata d) (loadCache file) b ∧
      (∀ n, ∃ batches file', batches.length = n ∧ Rounds (Round d b) file batches file') ∧
      ∀ batches file', Rounds (Round d b) file batches file' →
        batches.flatten.Nodup ∧
          ((∀ item ∈ getAllModifiedMetadata d, isCached (loadCache file') item = true) ↔
            (todo d file).length ⌈/⌉ b ≤ batches.length) := by
  refine ⟨getBatch_listsInOrder d _ b, fun n => exists_rounds (exists_round d b) n file, ?_⟩
  intro batches file' hrounds
  have htakes := round_takesBatches d b
  refine ⟨hrounds.nodup_done htakes (nodup_outstanding d _), ?_⟩
  rw [← todo_eq_nil_iff]
  exact hrounds.nothing_left_iff hb htakes

end

/-! ### Three packages -/

/-- `curl` and `gcc` are modified, `zlib` is not; there is no checksum of `gcc`. -/
def threePackages : MetadataDir where
  records := [("curl", { version := "8", sha := some "c1", modificationStatus := some .modified }),
    ("gcc", { version := "15", modificationStatus := some .modified }),
    ("zlib", { version := "1", modificationStatus := some .clean })]
  distinct := by decide

/-- A cache with the analysis of an older `curl`. -/
def oldFile : CacheFile := some (Cache.empty.put "curl" [("metadata_sha", .str "c0")])

theorem sortedFiles_threePackages : threePackages.sortedFiles = threePackages.records :=
  List.mergeSort_of_pairwise (by decide)

/-- The stale package comes first, and two batches of one reach both. -/
theorem batches_of_one :
    1 ≤ 1 ∧ todo threePackages oldFile = ["curl".toList, "gcc".toList] ∧
      ListsInOrder (getAllModifiedMetadata threePackages) (loadCache oldFile) 1 ∧
      (∀ n, ∃ batches file', batches.length = n ∧ Rounds (Round threePackages 1) oldFile batches file') ∧
      ∀ batches file', Rounds (Round threePackages 1) oldFile batches file' →
        batches.flatten.Nodup ∧
          ((∀ item ∈ getAllModifiedMetadata threePackages, isCached (loadCache file') item = true) ↔
            (todo threePackages oldFile).length ⌈/⌉ 1 ≤ batches.length) := by
  refine ⟨le_rfl, ?_, batches_reach_everything threePackages oldFile le_rfl⟩
  rw [todo, getAllModifiedMetadata, sortedFiles_threePackages]
  decide

end HummingbirdRpms.DiffBatches
