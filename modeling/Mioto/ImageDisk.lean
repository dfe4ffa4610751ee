import Mioto.ImageLoading
import Mioto.Trimming
import Mathlib.Data.List.Induction

/-! The clean-up of the disk cache, `deleteOldFilesWithCompletionBlock:` of `SDImageCache`: what
is too old goes, and of the rest the oldest until the cache is below half of its limit. -/

namespace Mioto

inductive SDImageCacheConfigExpireType
  | accessDate
  | modificationDate
  deriving DecidableEq

/-- `maxCacheSize` is 0 for no limit. -/
structure SDImageCacheConfig where
  maxCacheAge : Int
  maxCacheSize : Nat
  diskCacheExpireType : SDImageCacheConfigExpireType

/-- A file by the URL that its name was made from. `skipped` files are directories, or their
values cannot be read. -/
structure CacheFile where
  url : String
  skipped : Bool
  modificationDate : Int
  accessDate : Int
  totalFileAllocatedSize : Nat
  deriving DecidableEq

def cacheSize (files : List CacheFile) : Nat := (files.map CacheFile.totalFileAllocatedSize).sum

/-- What the first loop has gathered. -/
structure CacheScan where
  urlsToDelete : List CacheFile
  cacheFiles : List CacheFile
  currentCacheSize : Nat

namespace SDImageCacheConfig

variable (c : SDImageCacheConfig) (now : Int)

def cacheContentDate (f : CacheFile) : Int :=
  match c.diskCacheExpireType with
  | .accessDate => f.accessDate
  | .modificationDate => f.modificationDate

/-- The later of the two dates is the expiration date. -/
def isExpired (f : CacheFile) : Bool :=
  max (c.cacheContentDate f) (now - c.maxCacheAge) = now - c.maxCacheAge

def scan (a : CacheScan) (f : CacheFile) : CacheScan :=
  if f.skipped then a
  else if c.isExpired now f then { a with urlsToDelete := a.urlsToDelete ++ [f] }
  else
    { a with
      cacheFiles := a.cacheFiles ++ [f]
      currentCacheSize := a.currentCacheSize + f.totalFileAllocatedSize }

def scanAll (files : List CacheFile) : CacheScan := files.foldl (c.scan now) ⟨[], [], 0⟩

/-- The comparator asks for the modification date, and only the date of the expire type has been
read; two nil dates are the same. -/
def notAfter (f g : CacheFile) : Bool :=
  match c.diskCacheExpireType with
  | .accessDate => true
  | .modificationDate => f.modificationDate ≤ g.modificationDate

/-- The sort is not stable, and the dictionary that it sorts has no order. -/
structure Sorts (files sortedFiles : List CacheFile) : Prop where
  perm : sortedFiles.Perm (c.scanAll now files).cacheFiles
  sorted : sortedFiles.Pairwise fun f g => c.notAfter f g = true

/-- The files removed; `removes` says which can be. -/
def deleteOldFiles (removes : CacheFile → Bool) (files sortedFiles : List CacheFile) :
    List CacheFile :=
  let a := c.scanAll now files
  a.urlsToDelete.filter removes ++
    if 0 < c.maxCacheSize ∧ c.maxCacheSize < a.currentCacheSize then
      (Trimming.trim CacheFile.totalFileAllocatedSize removes (c.maxCacheSize / 2)
        a.currentCacheSize sortedFiles).1
    else []

/-! ### The two passes -/

def isDue (f : CacheFile) : Bool := !f.skipped && c.isExpired now f

def isKept (f : CacheFile) : Bool := !f.skipped && !c.isExpired now f

variable {c now} {files sortedFiles : List CacheFile} {removes : CacheFile → Bool}

theorem scanAll_eq (files : List CacheFile) : c.scanAll now files =
    ⟨files.filter (c.isDue now), files.filter (c.isKept now),
      cacheSize (files.filter (c.isKept now))⟩ := by
  induction files using List.reverseRecOn with
  | nil => rfl
  | append_singleton files f ih =>
    rw [scanAll, List.foldl_append, show files.foldl (c.scan now) ⟨[], [], 0⟩ = _ from ih]
    simp only [List.foldl_cons, List.foldl_nil, scan, List.filter_append, cacheSize]
    cases hs : f.skipped <;> cases he : c.isExpired now f <;> simp [isDue, isKept, hs, he]

/-- The files that are young enough are over the limit. -/
def Over (c : SDImageCacheConfig) (now : Int) (files : List CacheFile) : Prop :=
  0 < c.maxCacheSize ∧ c.maxCacheSize < cacheSize (files.filter (c.isKept now))

instance (c : SDImageCacheConfig) (now : Int) (files : List CacheFile) :
    Decidable (c.Over now files) := inferInstanceAs (Decidable (_ ∧ _))

/-- The young files that are not removed. -/
def left (c : SDImageCacheConfig) (now : Int) (files removed : List CacheFile) : List CacheFile :=
  (files.filter (c.isKept now)).filter (· ∉ removed)

structure Cleaned (c : SDImageCacheConfig) (now : Int) (removes : CacheFile → Bool)
    (files removed : List CacheFile) : Prop where
  listed : ∀ f ∈ removed, f ∈ files ∧ f.skipped = false ∧ removes f = true
  expired : ∀ f ∈ files, c.isDue now f = true → removes f = true → f ∈ removed
  spared : ¬ c.Over now files → ∀ f ∈ removed, c.isExpired now f = true
  oldest : c.diskCacheExpireType = .modificationDate →
    ∀ f ∈ removed, c.isExpired now f = false → ∀ g ∈ c.left now files removed,
      removes g = true → f.modificationDate ≤ g.modificationDate
  light : c.Over now files → cacheSize (c.left now files removed) < c.maxCacheSize / 2 ∨
    ∀ g ∈ c.left now files removed, removes g = false
  needed : c.Over now files → ∀ taken f, removed.filter (c.isKept now) = taken ++ [f] →
    c.maxCacheSize / 2 ≤ cacheSize (c.left now files removed) + f.totalFileAllocatedSize

/-- What the second pass takes and leaves. -/
def secondPass (c : SDImageCacheConfig) (now : Int) (removes : CacheFile → Bool)
    (files sortedFiles : List CacheFile) : List CacheFile × List CacheFile :=
  if c.Over now files then
    Trimming.trim CacheFile.totalFileAllocatedSize removes (c.maxCacheSize / 2)
      (cacheSize (files.filter (c.isKept now))) sortedFiles
  else ([], sortedFiles)

theorem deleteOldFiles_eq (removes : CacheFile → Bool) (files sortedFiles : List CacheFile) :
    c.deleteOldFiles now removes files sortedFiles =
      (files.filter (c.isDue now)).filter removes ++
        (c.secondPass now removes files sortedFiles).1 := by
  simp only [deleteOldFiles, scanAll_eq, secondPass]
  by_cases h : c.Over now files
  · rw [if_pos h, if_pos (show _ ∧ _ from h)]
  · rw [if_neg h, if_neg (show ¬ (_ ∧ _) from h)]

theorem secondPass_perm (hs : c.Sorts now files sortedFiles) :
    ((c.secondPass now removes files sortedFiles).1 ++
      (c.secondPass now removes files sortedFiles).2).Perm (files.filter (c.isKept now)) := by
  have hperm : sortedFiles.Perm (files.filter (c.isKept now)) := by
    simpa only [scanAll_eq] using hs.perm
  unfold secondPass
  split_ifs
  · exact (Trimming.trim_perm _ _).trans hperm
  · exact hperm

theorem isKept_iff {f : CacheFile} :
    c.isKept now f = true ↔ f.skipped = false ∧ c.isExpired now f = false := by
  simp [isKept]

theorem isDue_iff {f : CacheFile} :
    c.isDue now f = true ↔ f.skipped = false ∧ c.isExpired now f = true := by
  simp [isDue]

section

variable (hs : c.Sorts now files sortedFiles)

include hs

theorem mem_secondPass {f : CacheFile} (hf : f ∈ (c.secondPass now removes files sortedFiles).1) :
    f ∈ files ∧ c.isKept now f = true :=
  List.mem_filter.mp ((secondPass_perm hs).subset (List.mem_append_left _ hf))

theorem filter_deleteOldFiles :
    (c.deleteOldFiles now removes files sortedFiles).filter (c.isKept now) =
      (c.secondPass now removes files sortedFiles).1 := by
  have hdue : ((files.filter (c.isDue now)).filter removes).filter (c.isKept now) = [] := by
    refine List.filter_eq_nil_iff.mpr fun f hf hk => ?_
    have hd := isDue_iff.mp (List.mem_filter.mp (List.mem_filter.mp hf).1).2
    rw [(isKept_iff.mp hk).2] at hd
    cases hd.2
  rw [deleteOldFiles_eq, List.filter_append, hdue, List.nil_append]
  exact List.filter_eq_self.mpr fun f hf => (mem_secondPass hs hf).2

theorem mem_deleteOldFiles {f : CacheFile} (hk : c.isKept now f = true) :
    f ∈ c.deleteOldFiles now removes files sortedFiles ↔
      f ∈ (c.secondPass now removes files sortedFiles).1 := by
  rw [← filter_deleteOldFiles hs, List.mem_filter]
  exact (and_iff_left hk).symm

theorem left_perm (hn : files.Nodup) :
    (c.left now files (c.deleteOldFiles now removes files sortedFiles)).Perm
      (c.secondPass now removes files sortedFiles).2 := by
  let T := c.secondPass now removes files sortedFiles
  have hT : (T.1 ++ T.2).Perm (files.filter (c.isKept now)) := secondPass_perm hs
  have hdisjoint : ∀ f ∈ T.2, f ∉ T.1 := fun f hf hf' =>
    (List.nodup_append.mp (hT.nodup_iff.mpr (hn.filter _))).2.2 f hf' f hf rfl
  calc c.left now files (c.deleteOldFiles now removes files sortedFiles)
      = (files.filter (c.isKept now)).filter (· ∉ T.1) := by
        refine List.filter_congr fun f hf => ?_
        simp only [mem_deleteOldFiles hs (List.mem_filter.mp hf).2, T]
    _ |>.Perm ((T.1 ++ T.2).filter (· ∉ T.1)) := hT.symm.filter _
    _ = T.2 := by
        rw [List.filter_append, List.filter_eq_nil_iff.mpr fun f hf => by simp [hf],
          List.nil_append, List.filter_eq_self.mpr fun f hf => by simp [hdisjoint f hf]]

/-- Whatever order the sort leaves files of one date in. -/
theorem deleteOldFiles_cleaned (hn : files.Nodup) :
    Cleaned c now removes files (c.deleteOldFiles now removes files sortedFiles) := by
  have hleft : (c.left now files (c.deleteOldFiles now removes files sortedFiles)).Perm
      (c.secondPass now removes files sortedFiles).2 := left_perm hs hn
  have hsize : cacheSize (c.left now files (c.deleteOldFiles now removes files sortedFiles)) =
      cacheSize (c.secondPass now removes files sortedFiles).2 := (hleft.map _).sum_eq
  have hover : ∀ f ∈ (c.secondPass now removes files sortedFiles).1, c.Over now files := by
    intro f hf
    by_contra hn
    simp [secondPass, hn] at hf
  have hsum : cacheSize (files.filter (c.isKept now)) =
      0 + (sortedFiles.map CacheFile.totalFileAllocatedSize).sum := by
    have hperm : sortedFiles.Perm (files.filter (c.isKept now)) := by
      simpa only [scanAll_eq] using hs.perm
    rw [Nat.zero_add]
    exact (hperm.map _).sum_eq.symm
  have hmem : ∀ f ∈ c.deleteOldFiles now removes files sortedFiles,
      (f ∈ files ∧ c.isDue now f = true ∧ removes f = true) ∨
        f ∈ (c.secondPass now removes files sortedFiles).1 := by
    intro f hf
    rw [deleteOldFiles_eq] at hf
    rcases List.mem_append.mp hf with hf | hf
    · obtain ⟨hf, hr⟩ := List.mem_filter.mp hf
      exact .inl ⟨(List.mem_filter.mp hf).1, (List.mem_filter.mp hf).2, hr⟩
    · exact .inr hf
  refine ⟨fun f hf => ?_, fun f hf hd hr => ?_, fun hnot f hf => ?_, fun ht f hf he g hg hr => ?_,
    fun hov => ?_, fun hov taken f ht => ?_⟩
  · rcases hmem f hf with ⟨hf, hd, hr⟩ | hf
    · exact ⟨hf, (isDue_iff.mp hd).1, hr⟩
    · obtain ⟨hfiles, hk⟩ := mem_secondPass hs hf
      refine ⟨hfiles, (isKept_iff.mp hk).1, ?_⟩
      simp only [secondPass, hover f hf, if_true] at hf
      exact Trimming.movable_of_mem_trim hf
  · rw [deleteOldFiles_eq]
    exact List.mem_append_left _ (List.mem_filter.mpr ⟨List.mem_filter.mpr ⟨hf, hd⟩, hr⟩)
  · rcases hmem f hf with ⟨-, hd, -⟩ | hf
    · exact (isDue_iff.mp hd).2
    · exact absurd (hover f hf) hnot
  · have hf := (hmem f hf).resolve_left fun h => by
      rw [(isDue_iff.mp h.2.1).2] at he
      cases he
    have hg := hleft.subset hg
    simp only [secondPass, hover f hf, if_true] at hf hg
    have hord := Trimming.trim_ordered hs.sorted hf hg hr
    simpa [notAfter, ht] using hord
  · have hlight := @Trimming.trim_light _ CacheFile.totalFileAllocatedSize removes
      (c.maxCacheSize / 2) _ 0 sortedFiles hsum
    rw [Nat.zero_add] at hlight
    rw [hsize]
    simp only [secondPass, hov, if_true]
    refine hlight.imp_right fun h g hg => h g ?_
    simpa only [secondPass, hov, if_true] using hleft.subset hg
  · have hlimit : c.maxCacheSize / 2 ≤ cacheSize (files.filter (c.isKept now)) :=
      Nat.le_trans (Nat.div_le_self _ _) (Nat.le_of_lt hov.2)
    rw [filter_deleteOldFiles hs] at ht
    rw [hsize]
    simp only [secondPass, hov, if_true] at ht ⊢
    have hneeded := Trimming.trim_needed hsum hlimit ht
    rwa [Nat.zero_add] at hneeded

end

/-- The same with the dates that are to count does not hold where these are the access dates. -/
theorem recently_used_removed : ¬ ∀ (c : SDImageCacheConfig) now removes files sortedFiles,
    files.Nodup → c.Sorts now files sortedFiles →
      ∀ f ∈ c.deleteOldFiles now removes files sortedFiles, c.isExpired now f = false →
        ∀ g ∈ c.left now files (c.deleteOldFiles now removes files sortedFiles),
          removes g = true → c.cacheContentDate f ≤ c.cacheContentDate g := by
  intro hall
  let recent : CacheFile := ⟨"a", false, 1, 90, 5⟩
  let old : CacheFile := ⟨"b", false, 2, 50, 1⟩
  have hle := hall ⟨100, 5, .accessDate⟩ 100 (fun _ => true) [recent, old] [recent, old]
    (by decide) ⟨.refl _, by decide⟩ recent (by decide) (by decide) old (by decide) rfl
  exact absurd hle (by decide)

end SDImageCacheConfig

namespace Images

/-- Removing files is a run of the machine, and nothing but the disk changes. -/
theorem run_expire (s : Images) (removed : List CacheFile) :
    ∃ h s', machine.Run s h s' ∧
      h.map Move.event = (removed.map fun f => ImageEvent.expire f.url).reverse ∧
      s' = { s with disk := fun url =>
        if url ∈ removed.map CacheFile.url then none else s.disk url } := by
  induction removed generalizing s with
  | nil => exact ⟨[], s, .nil, rfl, by simp⟩
  | cons f removed ih =>
    let s₁ : Images := { s with disk := Function.update s.disk f.url none }
    have hf : machine.Fires ⟨s, .expire f.url, s₁, []⟩ := rfl
    obtain ⟨h, s', hr, hevents, rfl⟩ := ih s₁
    refine ⟨h ++ [⟨s, .expire f.url, s₁, []⟩], _, (Machine.Run.nil.cons hf).append hr,
      by simp [hevents], ?_⟩
    simp only [List.map_cons, List.mem_cons, s₁, Images.mk.injEq, true_and, and_true]
    funext url
    by_cases hu : url = f.url <;> simp [hu]

variable {c : SDImageCacheConfig} {now : Int} {removes : CacheFile → Bool}
  {files sortedFiles : List CacheFile}

/-- The clean-up from any state: all that is too old goes; while the rest is within the limit it
stays, and over the limit the oldest go, until what is left is below half of the limit or cannot
be removed, and not one more; nothing but the disk changes. -/
theorem clean_up (s : Images) (hn : files.Nodup) (hs : c.Sorts now files sortedFiles) :
    let removed := c.deleteOldFiles now removes files sortedFiles
    c.Cleaned now removes files removed ∧ ∃ h s', machine.Run s h s' ∧
      h.map Move.event = (removed.map fun f => ImageEvent.expire f.url).reverse ∧
      s' = { s with disk := fun url =>
        if url ∈ removed.map CacheFile.url then none else s.disk url } :=
  ⟨SDImageCacheConfig.deleteOldFiles_cleaned hs hn, run_expire s _⟩

def threeFiles : List CacheFile :=
  [⟨"a", false, 90, 0, 2⟩, ⟨"b", false, 10, 0, 2⟩, ⟨"c", false, 80, 0, 5⟩]

theorem three_files_cleaned :
    let c : SDImageCacheConfig := ⟨50, 6, .modificationDate⟩
    let sorted : List CacheFile := [⟨"c", false, 80, 0, 5⟩, ⟨"a", false, 90, 0, 2⟩]
    let removed := c.deleteOldFiles 100 (fun _ => true) threeFiles sorted
    removed.map CacheFile.url = ["b", "c"] ∧
      c.Cleaned 100 (fun _ => true) threeFiles removed :=
  ⟨by decide, (clean_up (launch fun _ => none) (by decide) ⟨by decide, by decide⟩).1⟩

end Images

end Mioto
