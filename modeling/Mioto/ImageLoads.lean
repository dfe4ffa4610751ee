import Mioto.ImageViews

/-! Where a load is. It waits in one place at a time: in the queue of the cache, in the main
queue, among the callbacks of a download, or in the block that a download has left on the main
queue. The downloader looks a download up under one lock and adds the callback under another,
and a callback that comes after the download has collected them is never called. -/

namespace Mioto

def Stage.collects : Stage → Bool
  | .waiting | .executing | .answered _ => true
  | .reported | .finished _ => false

def Job.asker : Job → Option OperationId
  | .query o => some o
  | .store _ _ => none

def Block.asker : Block → Option OperationId
  | .queried o _ => some o
  | .downloaded _ _ => none

/-- A task that ends with callbacks leaves them to be collected. -/
theorem DownloaderOperation.collects_didComplete {dl : DownloaderOperation}
    (h : dl.callbackBlocks ≠ []) (r : SessionResult) :
    (dl.didComplete r).stage.collects = true := by
  cases r with
  | error => rfl
  | data image => cases image <;> simp [DownloaderOperation.didComplete, h, Stage.collects]

namespace Images

/-- The loads that no download knows of yet. -/
def early (s : Images) : List OperationId :=
  s.ioQueue.filterMap Job.asker ++ s.mainQueue.filterMap Block.asker ++
    s.adding.toList.map Prod.fst

/-- A download will tell the load, or has left a block that will. -/
def Awaits (s : Images) (o : OperationId) : Prop :=
  (∃ d dl, s.downloads d = some dl ∧ o ∈ dl.callbackBlocks ∧ dl.stage.collects) ∨
    ∃ l r, .downloaded l r ∈ s.mainQueue ∧ o ∈ l

def UnderWay (s : Images) (o : OperationId) : Prop := o ∈ s.early ∨ s.Awaits o

def tokenOf (s : Images) (o : OperationId) : Option Bool :=
  (s.operations o).map (·.downloadToken)

structure Placed (s : Images) : Prop where
  running : ∀ o ∈ s.runningOperations, ∃ op, s.operations o = some op ∧ op.cancelled = false
  nodup : s.early.Nodup
  early : ∀ o ∈ s.early, s.tokenOf o = some false
  callbacks : ∀ d dl, s.downloads d = some dl → ∀ o ∈ dl.callbackBlocks, s.tokenOf o = some true
  downloaded : ∀ l r, .downloaded l r ∈ s.mainQueue → ∀ o ∈ l, s.tokenOf o = some true
  cancelled : ∀ d dl, s.downloads d = some dl → dl.cancelled = true → dl.callbackBlocks = []
  registered : ∀ u d, s.URLOperations u = some d →
    ∃ dl, s.downloads d = some dl ∧ dl.cancelled = false ∧ dl.url = u
  adding : ∀ o d, s.adding = some (o, d) →
    ∃ dl, s.downloads d = some dl ∧ dl.cancelled = false

theorem placed_launch {s : Images} (hl : Launch s) : Placed s where
  running o ho := by simp [hl.runningOperations] at ho
  nodup := by simp [Images.early, hl.ioQueue, hl.mainQueue, hl.adding]
  early o ho := by simp [Images.early, hl.ioQueue, hl.mainQueue, hl.adding] at ho
  callbacks d dl hd := by simp [hl.downloads d] at hd
  downloaded l r hm := by simp [hl.mainQueue] at hm
  cancelled d dl hd := by simp [hl.downloads d] at hd
  registered u d hu := by simp [hl.URLOperations u] at hu
  adding o d ha := by simp [hl.adding] at ha

/-- The operations that run on do so where they were. -/
def Carries (s s' : Images) : Prop :=
  ∀ o ∈ s'.runningOperations, o ∈ s.runningOperations ∧ (s'.UnderWay o ↔ s.UnderWay o)

theorem Carries.trans {s s' s'' : Images} (h : Carries s s') (h' : Carries s' s'') :
    Carries s s'' := fun o ho =>
  ⟨(h o (h' o ho).1).1, (h' o ho).2.trans (h o (h' o ho).1).2⟩

/-! ### Changes that move no load -/

structure SameLoads (s s' : Images) : Prop where
  operations : s'.operations = s.operations
  running : s'.runningOperations ⊆ s.runningOperations
  early : s'.early = s.early
  mainQueue : s'.mainQueue = s.mainQueue
  adding : s'.adding = s.adding
  URLOperations : s'.URLOperations = s.URLOperations
  downloads : s'.downloads = s.downloads

theorem SameLoads.refl (s : Images) : SameLoads s s := ⟨rfl, fun _ h => h, rfl, rfl, rfl, rfl, rfl⟩

theorem SameLoads.trans {s s' s'' : Images} (h : SameLoads s s') (h' : SameLoads s' s'') :
    SameLoads s s'' :=
  ⟨h'.operations.trans h.operations, fun _ ho => h.running (h'.running ho), h'.early.trans h.early,
    h'.mainQueue.trans h.mainQueue, h'.adding.trans h.adding,
    h'.URLOperations.trans h.URLOperations, h'.downloads.trans h.downloads⟩

theorem SameLoads.placed {s s' : Images} (h : SameLoads s s') (hp : Placed s) : Placed s' where
  running o ho := h.operations ▸ hp.running o (h.running ho)
  nodup := h.early ▸ hp.nodup
  early o ho := by
    rw [tokenOf, h.operations]
    exact hp.early o (h.early ▸ ho)
  callbacks d dl hd o ho := by
    rw [tokenOf, h.operations]
    exact hp.callbacks d dl (h.downloads ▸ hd) o ho
  downloaded l r hm o ho := by
    rw [tokenOf, h.operations]
    exact hp.downloaded l r (h.mainQueue ▸ hm) o ho
  cancelled d dl hd := hp.cancelled d dl (h.downloads ▸ hd)
  registered u d hu := h.downloads ▸ hp.registered u d (h.URLOperations ▸ hu)
  adding o d ha := h.downloads ▸ hp.adding o d (h.adding ▸ ha)

theorem SameLoads.underWay {s s' : Images} (h : SameLoads s s') (o : OperationId) :
    s'.UnderWay o ↔ s.UnderWay o := by
  simp only [UnderWay, Awaits, h.early, h.downloads, h.mainQueue]

theorem SameLoads.carries {s s' : Images} (h : SameLoads s s') : Carries s s' :=
  fun o ho => ⟨h.running ho, h.underWay o⟩

theorem sameLoads_setView (s : Images) (v : ViewId) (w : Option ImageView) :
    SameLoads s (s.setView v w) := ⟨rfl, fun _ h => h, rfl, rfl, rfl, rfl, rfl⟩

theorem sameLoads_removeRunning (s : Images) (o : OperationId) :
    SameLoads s (s.removeRunning o) :=
  ⟨rfl, fun _ h => List.mem_of_mem_filter h, rfl, rfl, rfl, rfl, rfl⟩

theorem sameLoads_complete (s : Images) (o : OperationId) (op : CombinedOperation)
    (image : Option UIImage) : SameLoads s (s.complete o op image).1 := by
  unfold complete
  split_ifs
  · exact .refl s
  · cases image with
    | none => exact .refl s
    | some x =>
      cases hw : s.views op.view with
      | none => exact .refl s
      | some w => exact sameLoads_setView s op.view _

theorem sameLoads_storeImage (s : Images) (url : String) (x : UIImage) :
    SameLoads s (s.storeImage url x) :=
  ⟨rfl, fun _ h => h, by simp [Images.early, storeImage, Job.asker], rfl, rfl, rfl, rfl⟩

theorem sameLoads_blockURLs (s : Images) (urls : List String) :
    SameLoads s { s with failedURLs := urls } := ⟨rfl, fun _ h => h, rfl, rfl, rfl, rfl, rfl⟩

theorem sameLoads_downloaded (r : LoadResult) (s : Images) (o : OperationId) :
    SameLoads s (downloaded r s o).1 := by
  unfold downloaded
  split
  · exact .refl s
  · split_ifs
    · exact sameLoads_removeRunning s o
    · next op _ _ =>
      cases r with
      | error code =>
        exact ((sameLoads_complete s o op none).trans (sameLoads_blockURLs _ _)).trans
          (sameLoads_removeRunning _ o)
      | image x =>
        exact ((sameLoads_storeImage s op.url x).trans (sameLoads_complete _ o op _)).trans
          (sameLoads_removeRunning _ o)

/-! ### Changes of one download -/

section

variable {s : Images} {d : DownloadId} {dl dl' : DownloaderOperation}

theorem awaits_setDownload (hd : s.downloads d = some dl) {o : OperationId}
    (ho : (o ∈ dl'.callbackBlocks ∧ dl'.stage.collects) ↔
      (o ∈ dl.callbackBlocks ∧ dl.stage.collects)) :
    (s.setDownload d dl').Awaits o ↔ s.Awaits o := by
  refine or_congr_left ⟨?_, ?_⟩
  · rintro ⟨d', dl'', hd', h⟩
    by_cases he : d' = d
    · obtain rfl : dl' = dl'' := by simpa [setDownload, he] using hd'
      exact ⟨d, dl, hd, ho.mp h⟩
    · exact ⟨d', dl'', by simpa [setDownload, he] using hd', h⟩
  · rintro ⟨d', dl'', hd', h⟩
    by_cases he : d' = d
    · obtain rfl : dl = dl'' := by simpa [he, hd] using hd'
      exact ⟨d, dl', by simp [setDownload], ho.mpr h⟩
    · exact ⟨d', dl'', by simpa [setDownload, he] using hd', h⟩

theorem Placed.setDownload (hp : Placed s) (hd : s.downloads d = some dl) (hu : dl'.url = dl.url)
    (hcb : ∀ o ∈ dl'.callbackBlocks, o ∈ dl.callbackBlocks)
    (hc : dl'.cancelled = dl.cancelled) : Placed (s.setDownload d dl') where
  running := hp.running
  nodup := hp.nodup
  early := hp.early
  callbacks d' dl'' hd' o ho := by
    by_cases he : d' = d
    · obtain rfl : dl' = dl'' := by simpa [Images.setDownload, he] using hd'
      exact hp.callbacks d dl hd o (hcb o ho)
    · exact hp.callbacks d' dl'' (by simpa [Images.setDownload, he] using hd') o ho
  downloaded := hp.downloaded
  cancelled d' dl'' hd' hcan := by
    by_cases he : d' = d
    · obtain rfl : dl' = dl'' := by simpa [Images.setDownload, he] using hd'
      have hnil := hp.cancelled d dl hd (hc ▸ hcan)
      exact List.eq_nil_iff_forall_not_mem.mpr fun o ho => by simpa [hnil] using hcb o ho
    · exact hp.cancelled d' dl'' (by simpa [Images.setDownload, he] using hd') hcan
  registered u d' hu' := by
    obtain ⟨dl₀, hd₀, hc₀, hu₀⟩ := hp.registered u d' hu'
    by_cases he : d' = d
    · obtain rfl : dl = dl₀ := by simpa [he, hd] using hd₀
      exact ⟨dl', by simp [Images.setDownload, he], hc.trans hc₀, hu.trans hu₀⟩
    · exact ⟨dl₀, by simpa [Images.setDownload, he] using hd₀, hc₀, hu₀⟩
  adding o d' ha := by
    obtain ⟨dl₀, hd₀, hc₀⟩ := hp.adding o d' ha
    by_cases he : d' = d
    · obtain rfl : dl = dl₀ := by simpa [he, hd] using hd₀
      exact ⟨dl', by simp [Images.setDownload, he], hc.trans hc₀⟩
    · exact ⟨dl₀, by simpa [Images.setDownload, he] using hd₀, hc₀⟩

end

theorem Placed.unregister {s : Images} (hp : Placed s) (url : String) :
    Placed { s with URLOperations := Function.update s.URLOperations url none } :=
  { hp with
    registered := fun u d hu => by
      by_cases he : u = url
      · simp [he] at hu
      · exact hp.registered u d (by simpa [he] using hu) }

/-- A callback that is taken back leaves the others where they are. -/
theorem mem_cancel {dl : DownloaderOperation} {o o' : OperationId} (hne : o' ≠ o) :
    (o' ∈ (dl.cancel o).1.callbackBlocks ∧ (dl.cancel o).1.stage.collects) ↔
      (o' ∈ dl.callbackBlocks ∧ dl.stage.collects) := by
  rw [dl.callbackBlocks_cancel]
  have hmem : o' ∈ dl.callbackBlocks.filter (· != o) ↔ o' ∈ dl.callbackBlocks := by simp [hne]
  rw [hmem]
  refine and_congr_right fun ho => ?_
  have hnil : dl.callbackBlocks.filter (· != o) ≠ [] := List.ne_nil_of_mem (hmem.mpr ho)
  simp [DownloaderOperation.cancel, hnil]

theorem Placed.cancelDownload {s : Images} (hp : Placed s) (ha : s.adding = none) (url : String)
    (o : OperationId) : Placed (s.cancelDownload url o) ∧
      ∀ o', o' ≠ o → ((s.cancelDownload url o).UnderWay o' ↔ s.UnderWay o') := by
  unfold Images.cancelDownload
  cases hu : s.URLOperations url with
  | none => exact ⟨hp, fun _ _ => Iff.rfl⟩
  | some d =>
    obtain ⟨dl, hd, hc, hurl⟩ := hp.registered url d hu
    simp only [hd]
    refine ⟨?_, fun o' hne => or_congr_right (awaits_setDownload hd (mem_cancel hne))⟩
    have hcb : ∀ o' ∈ (dl.cancel o).1.callbackBlocks, o' ∈ dl.callbackBlocks := by
      rw [dl.callbackBlocks_cancel]
      exact fun _ ho => List.mem_of_mem_filter ho
    have hnil : (dl.cancel o).1.cancelled = true → (dl.cancel o).1.callbackBlocks = [] := by
      intro hcan
      rw [dl.callbackBlocks_cancel]
      by_contra hne
      simp [DownloaderOperation.cancel, hne, hc] at hcan
    refine { hp with callbacks := ?_, cancelled := ?_, registered := ?_, adding := by simp [ha] }
    · intro d' dl' hd' o' ho'
      by_cases he : d' = d
      · obtain rfl : (dl.cancel o).1 = dl' := by simpa [he] using hd'
        exact hp.callbacks d dl hd o' (hcb o' ho')
      · exact hp.callbacks d' dl' (by simpa [he] using hd') o' ho'
    · intro d' dl' hd' hcan
      by_cases he : d' = d
      · obtain rfl : (dl.cancel o).1 = dl' := by simpa [he] using hd'
        exact hnil hcan
      · exact hp.cancelled d' dl' (by simpa [he] using hd') hcan
    · intro u d' hu'
      by_cases hflag : (dl.cancel o).2 = true
      · simp only [hflag, if_true] at hu'
        by_cases hue : u = url
        · simp [hue] at hu'
        · obtain ⟨dl', hd', hc', hurl'⟩ := hp.registered u d' (by simpa [hue] using hu')
          -- no download is registered for two URLs
          have he : d' ≠ d := by
            rintro rfl
            obtain rfl := Option.some.inj (hd.symm.trans hd')
            exact hue (hurl'.symm.trans hurl)
          exact ⟨dl', by simpa [he] using hd', hc', hurl'⟩
      · simp only [hflag] at hu'
        obtain ⟨dl', hd', hc', hurl'⟩ := hp.registered u d' (by simpa using hu')
        by_cases he : d' = d
        · obtain rfl : dl = dl' := by simpa [he, hd] using hd'
          refine ⟨(dl.cancel o).1, by simp [he], ?_, by simpa using hurl'⟩
          have hne : dl.callbackBlocks.filter (· != o) ≠ [] := by
            intro hnil
            simp [DownloaderOperation.cancel, hnil] at hflag
          simpa [DownloaderOperation.cancel, hne] using hc'
        · exact ⟨dl', by simpa [he] using hd', hc', hurl'⟩

/-! ### Changes that move a load -/

variable {s : Images}

theorem tokenOf_setOperation (o : OperationId) (op : CombinedOperation) (o' : OperationId) :
    (s.setOperation o op).tokenOf o' = if o' = o then some op.downloadToken else s.tokenOf o' := by
  by_cases he : o' = o <;> simp [tokenOf, setOperation, he]

/-- An operation that is set loads on under the same token, or is new and waits nowhere. -/
theorem Placed.setOperation (hp : Placed s) {o : OperationId} {op : CombinedOperation}
    (ht : s.tokenOf o = none ∨ s.tokenOf o = some op.downloadToken)
    (hr : o ∈ s.runningOperations → op.cancelled = false) : Placed (s.setOperation o op) := by
  have htok : ∀ o' b, s.tokenOf o' = some b → (s.setOperation o op).tokenOf o' = some b := by
    intro o' b hb
    rw [tokenOf_setOperation]
    split_ifs with he
    · subst he
      rcases ht with ht | ht
      · simp [ht] at hb
      · exact ht.symm.trans hb
    · exact hb
  exact
    { hp with
      running := fun o' ho' => by
        by_cases he : o' = o
        · subst he
          exact ⟨op, by simp [Images.setOperation], hr ho'⟩
        · simpa [Images.setOperation, he] using hp.running o' ho'
      early := fun o' ho' => htok o' _ (hp.early o' ho')
      callbacks := fun d dl hd o' ho' => htok o' _ (hp.callbacks d dl hd o' ho')
      downloaded := fun l r hm o' ho' => htok o' _ (hp.downloaded l r hm o' ho') }

theorem Placed.tokenOf_of_underWay (hp : Placed s) {o : OperationId} (h : s.UnderWay o) :
    s.tokenOf o ≠ none := by
  rcases h with h | ⟨d, dl, hd, ho, -⟩ | ⟨l, r, hm, ho⟩
  · simp [hp.early o h]
  · simp [hp.callbacks d dl hd o ho]
  · simp [hp.downloaded l r hm o ho]

theorem Placed.cancelOperation (hp : Placed s) (ha : s.adding = none) {o : OperationId}
    {op : CombinedOperation} (ho : s.operations o = some op) :
    Placed (s.cancelOperation o op) ∧ Carries s (s.cancelOperation o op) := by
  have hs : Placed ((s.removeRunning o).setOperation o { op with cancelled := true }) := by
    refine ((sameLoads_removeRunning s o).placed hp).setOperation (.inr ?_) ?_
    · simp [tokenOf, removeRunning, ho]
    · intro ho'
      simp [removeRunning] at ho'
  have hcar : ∀ s' : Images, s'.runningOperations = s.runningOperations.filter (· != o) →
      (∀ o', o' ≠ o → (s'.UnderWay o' ↔ s.UnderWay o')) → Carries s s' := by
    intro s' hr hu o' ho'
    rw [hr] at ho'
    obtain ⟨hmem, hne⟩ := List.mem_filter.mp ho'
    exact ⟨hmem, hu o' (bne_iff_ne.mp hne)⟩
  have hrun := cancelOperation_runningOperations s o op
  unfold Images.cancelOperation at hrun ⊢
  simp only at hrun ⊢
  split_ifs at hrun ⊢
  · rw [removeRunning_cancelDownload] at hrun ⊢
    obtain ⟨hpl, hu⟩ := Placed.cancelDownload hs ha op.url o
    exact ⟨hpl, hcar _ hrun hu⟩
  · exact ⟨hs, hcar _ hrun fun _ _ => Iff.rfl⟩

theorem Placed.cancelImageLoad (hp : Placed s) (ha : s.adding = none) (w : ImageView) :
    Placed (s.cancelImageLoad w) ∧ Carries s (s.cancelImageLoad w) := by
  unfold Images.cancelImageLoad
  split
  · exact ⟨hp, (SameLoads.refl s).carries⟩
  · split
    · exact ⟨hp, (SameLoads.refl s).carries⟩
    · next hop => exact hp.cancelOperation ha hop

/-- Everything that runs in `s'` ran in `s`, in the same place, or is new and under way. -/
def Follows (s s' : Images) : Prop :=
  ∀ o ∈ s'.runningOperations, (s.operations o = none ∧ s'.UnderWay o) ∨
    (o ∈ s.runningOperations ∧ (s'.UnderWay o ↔ s.UnderWay o))

theorem Carries.follows {s s' : Images} (h : Carries s s') : Follows s s' :=
  fun o ho => .inr (h o ho)

theorem Placed.loadImage (hp : Placed s) {o : OperationId} (ho : s.operations o = none)
    (v : ViewId) (url : String) :
    Placed (s.loadImage v url o).1 ∧ Follows s (s.loadImage v url o).1 := by
  have htok : s.tokenOf o = none := by simp [tokenOf, ho]
  have hs : Placed (s.setOperation o ⟨v, url, false, false⟩) :=
    hp.setOperation (.inl htok) fun _ => rfl
  have hnew : ¬ s.UnderWay o := fun hu => hp.tokenOf_of_underWay hu htok
  have hcomplete : ∀ image, Placed ((s.setOperation o ⟨v, url, false, false⟩).complete o
        ⟨v, url, false, false⟩ image).1 ∧
      Follows s ((s.setOperation o ⟨v, url, false, false⟩).complete o
        ⟨v, url, false, false⟩ image).1 := by
    intro image
    have hc := sameLoads_complete (s.setOperation o ⟨v, url, false, false⟩) o
      ⟨v, url, false, false⟩ image
    exact ⟨hc.placed hs, fun o' ho' => .inr (hc.carries o' ho')⟩
  unfold Images.loadImage
  simp only
  split_ifs
  · exact hcomplete none
  · split
    · next x _ => exact hcomplete (some x)
    · have hperm : (Images.early { s.setOperation o ⟨v, url, false, false⟩ with
          runningOperations := s.runningOperations ++ [o]
          ioQueue := s.ioQueue ++ [Job.query o] }).Perm (o :: s.early) := by
        simp only [Images.early, Images.setOperation, List.filterMap_append, List.append_assoc]
        exact List.perm_middle
      refine ⟨{ hs with running := ?_, nodup := ?_, early := ?_ }, fun o' hrun => ?_⟩
      · intro o' hrun
        rcases List.mem_append.mp hrun with hrun | hrun
        · exact hs.running o' hrun
        · obtain rfl := List.mem_singleton.mp hrun
          exact ⟨⟨v, url, false, false⟩, by simp [Images.setOperation], rfl⟩
      · exact hperm.nodup_iff.mpr (List.nodup_cons.mpr ⟨fun hmem => hnew (.inl hmem), hp.nodup⟩)
      · intro o' hmem
        rcases List.mem_cons.mp (hperm.mem_iff.mp hmem) with rfl | hmem
        · show (s.setOperation o' _).tokenOf o' = _
          rw [tokenOf_setOperation, if_pos rfl]
        · exact hs.early o' hmem
      · rcases List.mem_append.mp hrun with hold | hrun
        · have hne : o' ≠ o := by
            rintro rfl
            obtain ⟨op, hop, -⟩ := hp.running o' hold
            simp [ho] at hop
          refine .inr ⟨hold, or_congr (hperm.mem_iff.trans ?_) Iff.rfl⟩
          simp [hne]
        · obtain rfl := List.mem_singleton.mp hrun
          exact .inl ⟨ho, .inl (hperm.mem_iff.mpr List.mem_cons_self)⟩

theorem Placed.setImageWithURL (hp : Placed s) (ha : s.adding = none) (v : ViewId) (w : ImageView)
    (url : Option String) {o : OperationId} (ho : s.operations o = none) :
    Placed (s.setImageWithURL v w url o).1 ∧ Follows s (s.setImageWithURL v w url o).1 := by
  obtain ⟨hs, hcar⟩ := hp.cancelImageLoad ha w
  have hview := fun w' => sameLoads_setView (s.cancelImageLoad w) v w'
  unfold Images.setImageWithURL
  cases url with
  | none => exact ⟨(hview _).placed hs, (hcar.trans (hview _).carries).follows⟩
  | some u =>
    have hfresh := (cancelImageLoad_operations s w o).mpr ho
    obtain ⟨hl, hf⟩ := Placed.loadImage ((hview (some ⟨none, u, some o⟩)).placed hs) hfresh v u
    refine ⟨hl, fun o' ho' => ?_⟩
    rcases hf o' ho' with ⟨hnone, hu⟩ | ⟨hrun, hu⟩
    · exact .inl ⟨(cancelImageLoad_operations s w o').mp hnone, hu⟩
    · obtain ⟨hrun', hu'⟩ := hcar o' hrun
      exact .inr ⟨hrun', hu.trans (((hview _).underWay o').trans hu')⟩

/-! ### The blocks of the main queue -/

theorem Placed.pop (hp : Placed s) {b : Block} {bs : List Block} (hb : s.mainQueue = b :: bs) :
    Placed { s with mainQueue := bs } := by
  have hsub : (Images.early { s with mainQueue := bs }).Sublist s.early := by
    refine ((List.Sublist.refl _).append (List.Sublist.filterMap _ ?_)).append (.refl _)
    rw [hb]
    exact List.sublist_cons_self b bs
  exact
    { hp with
      nodup := hp.nodup.sublist hsub
      early := fun o ho => hp.early o (hsub.subset ho)
      downloaded := fun l r hm => hp.downloaded l r (hb ▸ List.mem_cons_of_mem b hm) }

theorem Placed.addProgressCallback (hp : Placed s) (ha : s.adding = none) {o : OperationId}
    (ht : s.tokenOf o = some false) (hne : o ∉ s.early) (url : String) {fresh : DownloadId}
    (hf : s.downloads fresh = none) : Placed (s.addProgressCallback o url fresh) ∧
      ∀ o', (s.addProgressCallback o url fresh).UnderWay o' ↔ s.UnderWay o' ∨ o' = o := by
  have hearly : ∀ d dls ops, Images.early { s with
      adding := some (o, d), downloads := dls, URLOperations := ops } = s.early ++ [o] := by
    intro d dls ops
    simp [Images.early, ha]
  have hnodup : (s.early ++ [o]).Nodup := by
    simpa [List.nodup_append, hp.nodup] using fun o' ho' (he : o' = o) => hne (he ▸ ho')
  have htok : ∀ o' ∈ s.early ++ [o], s.tokenOf o' = some false := by
    intro o' ho'
    rcases List.mem_append.mp ho' with ho' | ho'
    · exact hp.early o' ho'
    · rw [List.mem_singleton.mp ho', ht]
  unfold Images.addProgressCallback
  split
  · next d hd =>
    obtain ⟨dl, hdl, hc, -⟩ := hp.registered url d (Option.filter_eq_some_iff.mp hd).1
    refine ⟨{ hp with nodup := ?_, early := ?_, adding := ?_ }, fun o' => ?_⟩
    · rwa [hearly]
    · rwa [hearly]
    · intro o' d' he
      obtain ⟨rfl, rfl⟩ := Prod.mk.inj (Option.some.inj he)
      exact ⟨dl, hdl, hc⟩
    · simp only [UnderWay, hearly, List.mem_append, List.mem_singleton]
      show (_ ∨ _) ∨ s.Awaits o' ↔ _
      tauto
  · have hnew : ∀ d dl, s.downloads d = some dl → d ≠ fresh := by
      rintro d dl hd rfl
      simp [hf] at hd
    refine ⟨{ hp with
      nodup := ?_, early := ?_, callbacks := ?_, cancelled := ?_, registered := ?_, adding := ?_ },
      fun o' => ?_⟩
    · rwa [hearly]
    · rwa [hearly]
    · intro d dl hd o' ho'
      by_cases he : d = fresh
      · obtain rfl : _ = dl := by simpa [he] using hd
        simp at ho'
      · exact hp.callbacks d dl (by simpa [he] using hd) o' ho'
    · intro d dl hd hc
      by_cases he : d = fresh
      · obtain rfl : _ = dl := by simpa [he] using hd
        rfl
      · exact hp.cancelled d dl (by simpa [he] using hd) hc
    · intro u d hu
      by_cases he : u = url
      · obtain rfl : fresh = d := by simpa [he] using hu
        exact ⟨⟨url, [], false, .waiting⟩, by simp, rfl, he.symm⟩
      · obtain ⟨dl, hd, hdu⟩ := hp.registered u d (by simpa [he] using hu)
        exact ⟨dl, by simpa [hnew d dl hd] using hd, hdu⟩
    · intro o' d he
      obtain ⟨rfl, rfl⟩ := Prod.mk.inj (Option.some.inj he)
      exact ⟨⟨url, [], false, .waiting⟩, by simp, rfl⟩
    · have haw : Images.Awaits { s with
          downloads := Function.update s.downloads fresh (some ⟨url, [], false, .waiting⟩)
          URLOperations := Function.update s.URLOperations url (some fresh)
          adding := some (o, fresh) } o' ↔ s.Awaits o' := by
        refine or_congr_left ⟨?_, ?_⟩
        · rintro ⟨d, dl, hd, ho', hst⟩
          by_cases he : d = fresh
          · obtain rfl : _ = dl := by simpa [he] using hd
            simp at ho'
          · exact ⟨d, dl, by simpa [he] using hd, ho', hst⟩
        · rintro ⟨d, dl, hd, ho', hst⟩
          exact ⟨d, dl, by simpa [hnew d dl hd] using hd, ho', hst⟩
      simp only [UnderWay, hearly, haw, List.mem_append, List.mem_singleton]
      tauto

/-- A query that has been answered was the only place of its load. -/
theorem Placed.queriedBlock (hp : Placed s) (ha : s.adding = none) {o : OperationId}
    {image : Option UIImage} {bs : List Block} (hb : s.mainQueue = .queried o image :: bs)
    {fresh : DownloadId} (hf : s.downloads fresh = none) :
    Placed ({ s with mainQueue := bs }.queried o image fresh).1 ∧
      Carries s ({ s with mainQueue := bs }.queried o image fresh).1 := by
  have hs := hp.pop hb
  have hperm : s.early.Perm (o :: Images.early { s with mainQueue := bs }) := by
    simp only [Images.early, hb, List.append_assoc]
    exact List.perm_middle
  have hne : o ∉ Images.early { s with mainQueue := bs } :=
    (List.nodup_cons.mp (hperm.nodup_iff.mp hp.nodup)).1
  have hu : ∀ o', s.UnderWay o' ↔ Images.UnderWay { s with mainQueue := bs } o' ∨ o' = o := by
    intro o'
    have haw : s.Awaits o' ↔ Images.Awaits { s with mainQueue := bs } o' := by
      refine or_congr_right ⟨?_, ?_⟩
      · rintro ⟨l, r, hm, ho'⟩
        rw [hb] at hm
        exact ⟨l, r, (List.mem_cons.mp hm).resolve_left nofun, ho'⟩
      · rintro ⟨l, r, hm, ho'⟩
        exact ⟨l, r, hb ▸ List.mem_cons_of_mem _ hm, ho'⟩
    simp only [UnderWay, haw, hperm.mem_iff, List.mem_cons]
    tauto
  -- any other load is where it was, and this one has ended
  have hgone : ∀ s' : Images, SameLoads { s with mainQueue := bs } s' →
      Carries s (s'.removeRunning o) := by
    intro s' h o' ho'
    obtain ⟨hmem, hno⟩ := List.mem_filter.mp ho'
    refine ⟨h.running hmem, ((h.underWay o').trans ?_)⟩
    rw [hu]
    simp [bne_iff_ne.mp hno]
  unfold Images.queried
  split
  · next hop =>
    have htok := hp.early o (hperm.mem_iff.mpr List.mem_cons_self)
    simp [tokenOf, show s.operations o = none from hop] at htok
  · next op hop =>
    split_ifs
    · exact ⟨(sameLoads_removeRunning _ o).placed hs, hgone _ (.refl _)⟩
    · cases image with
      | some x =>
        have hc := sameLoads_complete { s with mainQueue := bs } o op (some x)
        exact ⟨(sameLoads_removeRunning _ o).placed (hc.placed hs), hgone _ hc⟩
      | none =>
        have htok := hp.early o (hperm.mem_iff.mpr List.mem_cons_self)
        obtain ⟨hadd, hadd'⟩ := Placed.addProgressCallback hs ha htok hne op.url hf
        refine ⟨hadd, fun o' ho' => ⟨?_, (hadd' o').trans (hu o').symm⟩⟩
        simp only [Images.addProgressCallback] at ho'
        split at ho' <;> exact ho'

/-- All that a download tells are done with, whatever it tells them. -/
theorem running_downloaded (r : LoadResult) (s : Images) (o : OperationId) {o' : OperationId}
    (ho' : o' ∈ (downloaded r s o).1.runningOperations) (hop : s.operations o' ≠ none) :
    o' ≠ o := by
  rintro rfl
  have hremove : ∀ s' : Images, o' ∉ (s'.removeRunning o').runningOperations := by
    simp [removeRunning]
  unfold downloaded at ho'
  split at ho'
  · next hnone => exact hop hnone
  · split_ifs at ho'
    · exact hremove _ ho'
    · cases r <;> exact hremove _ ho'

theorem sameLoads_runAll_downloaded (r : LoadResult) (l : List OperationId) (s : Images) :
    SameLoads s (Sequence.runAll (fun _ : Images => false) (downloaded r) s l).1 := by
  have hc : Sequence.Closed fun (s : Images) (r : ImageOutcome) => SameLoads s r.1 :=
    ⟨.refl, .trans⟩
  exact hc.runAll (fun s o _ => sameLoads_downloaded r s o) s

theorem running_runAll_downloaded (r : LoadResult) (l : List OperationId) (s : Images)
    {o : OperationId} (hop : s.operations o ≠ none)
    (ho : o ∈ (Sequence.runAll (fun _ : Images => false) (downloaded r) s l).1.runningOperations) :
    o ∉ l := by
  induction l generalizing s with
  | nil => simp
  | cons o' l ih =>
    rw [Sequence.runAll_cons, Sequence.andThen_of_go _ rfl] at ho
    have hrest := (sameLoads_runAll_downloaded r l (downloaded r s o').1).running ho
    rw [List.mem_cons, not_or]
    refine ⟨running_downloaded r s o' hrest hop, ih (downloaded r s o').1 ?_ ho⟩
    rwa [(sameLoads_downloaded r s o').operations]

theorem Placed.downloadedBlock (hp : Placed s) {l : List OperationId} {r : LoadResult}
    {bs : List Block} (hb : s.mainQueue = .downloaded l r :: bs) :
    Placed (Sequence.runAll (fun _ : Images => false) (Images.downloaded r)
        { s with mainQueue := bs } l).1 ∧
      Carries s (Sequence.runAll (fun _ : Images => false) (Images.downloaded r)
        { s with mainQueue := bs } l).1 := by
  have hsame := sameLoads_runAll_downloaded r l { s with mainQueue := bs }
  have hpl := hsame.placed (hp.pop hb)
  refine ⟨hpl, fun o ho => ⟨hsame.running ho, (hsame.underWay o).trans ?_⟩⟩
  have hop : s.operations o ≠ none := by
    obtain ⟨op, hop, -⟩ := hp.running o (hsame.running ho)
    simp [hop]
  have hl := running_runAll_downloaded r l { s with mainQueue := bs } hop ho
  refine or_congr (by simp [Images.early, hb, Block.asker]) (or_congr_right ⟨?_, ?_⟩)
  · rintro ⟨l', r', hm, ho'⟩
    exact ⟨l', r', hb ▸ List.mem_cons_of_mem _ hm, ho'⟩
  · rintro ⟨l', r', hm, ho'⟩
    rw [hb] at hm
    rcases List.mem_cons.mp hm with he | hm
    · obtain ⟨rfl, -⟩ := Block.downloaded.inj he
      exact absurd ho' hl
    · exact ⟨l', r', hm, ho'⟩

/-! ### The other threads -/

theorem Placed.runJob (hp : Placed s) {j : Job} {js : List Job} (hj : s.ioQueue = j :: js) :
    Placed ({ s with ioQueue := js }.runJob j) ∧ Carries s ({ s with ioQueue := js }.runJob j) := by
  cases j with
  | store url x =>
    have hsame : SameLoads s ({ s with ioQueue := js }.runJob (.store url x)) :=
      ⟨rfl, fun _ h => h, by
        simp [Images.early, Images.runJob, hj, Job.asker, List.filterMap_cons], rfl, rfl, rfl, rfl⟩
    exact ⟨hsame.placed hp, hsame.carries⟩
  | query o =>
    have hmem : o ∈ s.early := by simp [Images.early, hj, Job.asker]
    have htok := hp.early o hmem
    obtain ⟨op, hop, -⟩ := Option.map_eq_some_iff.mp htok
    simp only [Images.runJob, hop]
    split_ifs with hc
    · have hperm : s.early = o :: Images.early { s with ioQueue := js } := by
        simp [Images.early, hj, Job.asker]
      refine ⟨{ hp with nodup := ?_, early := ?_ }, fun o' ho' => ⟨ho', or_congr_left ?_⟩⟩
      · exact (List.nodup_cons.mp (hperm ▸ hp.nodup)).2
      · exact fun o' ho' => hp.early o' (hperm ▸ List.mem_cons_of_mem o ho')
      · have hne : o' ≠ o := by
          rintro rfl
          obtain ⟨op', hop', hc'⟩ := hp.running o' ho'
          obtain rfl := Option.some.inj (hop.symm.trans hop')
          simp [hc] at hc'
        rw [hperm, List.mem_cons]
        simp [hne]
    · have hperm : (Images.early { s with
          ioQueue := js
          mainQueue := s.mainQueue ++ [.queried o (s.disk op.url)] }).Perm s.early := by
        simp only [Images.early, hj, List.filterMap_append, List.append_assoc]
        exact (List.perm_append_left_iff _).mpr List.perm_middle |>.trans List.perm_middle
      refine ⟨{ hp with nodup := ?_, early := ?_, downloaded := ?_ }, fun o' ho' =>
        ⟨ho', or_congr hperm.mem_iff (or_congr_right ?_)⟩⟩
      · exact hperm.nodup_iff.mpr hp.nodup
      · exact fun o' ho' => hp.early o' (hperm.mem_iff.mp ho')
      · exact fun l r hm => hp.downloaded l r (by simpa using hm)
      · simp

/-- The callbacks leave the download for a block of the main queue. -/
theorem Placed.report (hp : Placed s) {d : DownloadId} {dl : DownloaderOperation}
    (hd : s.downloads d = some dl) {res : LoadResult} (hst : dl.stage = .answered res) :
    let s' : Images := { s.setDownload d { dl with stage := .reported } with
      mainQueue := s.mainQueue ++ [.downloaded dl.callbackBlocks res] }
    Placed s' ∧ Carries s s' := by
  intro s'
  have hpl : Placed (s.setDownload d { dl with stage := .reported }) :=
    hp.setDownload hd rfl (fun _ h => h) rfl
  have hearly : s'.early = s.early := by
    simp [s', Images.early, Images.setDownload, Block.asker, List.filterMap_cons]
  have hqueue : ∀ l r, .downloaded l r ∈ s'.mainQueue →
      .downloaded l r ∈ s.mainQueue ∨ l = dl.callbackBlocks := by
    intro l r hm
    refine (List.mem_append.mp hm).imp_right fun hm => ?_
    exact (Block.downloaded.inj (List.mem_singleton.mp hm)).1
  refine ⟨{ hpl with nodup := ?_, early := ?_, downloaded := ?_ }, fun o hrun =>
    ⟨hrun, or_congr (by rw [hearly]) ⟨?_, ?_⟩⟩⟩
  · exact hearly ▸ hp.nodup
  · exact fun o ho => hp.early o (hearly ▸ ho)
  · intro l r hm o ho
    rcases hqueue l r hm with hm | rfl
    · exact hp.downloaded l r hm o ho
    · exact hp.callbacks d dl hd o ho
  · rintro (⟨d', dl', hd', ho, hc⟩ | ⟨l, r, hm, ho⟩)
    · by_cases he : d' = d
      · obtain rfl : _ = dl' := by simpa [s', Images.setDownload, he] using hd'
        cases hc
      · exact .inl ⟨d', dl', by simpa [s', Images.setDownload, he] using hd', ho, hc⟩
    · rcases hqueue l r hm with hm | rfl
      · exact .inr ⟨l, r, hm, ho⟩
      · exact .inl ⟨d, dl, hd, ho, by simp [hst, Stage.collects]⟩
  · rintro (⟨d', dl', hd', ho, hc⟩ | ⟨l, r, hm, ho⟩)
    · by_cases he : d' = d
      · obtain rfl : dl = dl' := by simpa [he, hd] using hd'
        exact .inr ⟨dl.callbackBlocks, res, by simp [s'], ho⟩
      · exact .inl ⟨d', dl', by simpa [s', Images.setDownload, he] using hd', ho, hc⟩
    · exact .inr ⟨l, r, List.mem_append_left _ hm, ho⟩

theorem Placed.advance (hp : Placed s) {d : DownloadId} {dl : DownloaderOperation}
    (hd : s.downloads d = some dl) {e : ImageEvent} {r : ImageOutcome}
    (hr : Advances s d dl e r) : Placed r.1 ∧ Carries s r.1 := by
  have hset : ∀ dl' : DownloaderOperation, dl'.url = dl.url → dl'.cancelled = dl.cancelled →
      (∀ o ∈ dl'.callbackBlocks, o ∈ dl.callbackBlocks) →
      (∀ o, (o ∈ dl'.callbackBlocks ∧ dl'.stage.collects) ↔
        (o ∈ dl.callbackBlocks ∧ dl.stage.collects)) →
      Placed (s.setDownload d dl') ∧ Carries s (s.setDownload d dl') :=
    fun dl' hu hc hcb ho => ⟨hp.setDownload hd hu hcb hc,
      fun o hrun => ⟨hrun, or_congr_right (awaits_setDownload hd (ho o))⟩⟩
  cases hr with
  | start hst =>
    have hcb : dl.start.callbackBlocks = dl.callbackBlocks := by
      rw [dl.callbackBlocks_start]
      split_ifs with hc
      · exact (hp.cancelled d dl hd hc).symm
      · rfl
    refine hset dl.start (by simp) (by simp) (by simp [hcb]) fun o => ?_
    rw [hcb]
    unfold DownloaderOperation.start
    split_ifs with hc
    · simp [hp.cancelled d dl hd hc]
    · simp [hst, Stage.collects]
  | didComplete res hst =>
    refine hset (dl.didComplete res) (by simp) (by simp) (by simp) fun o => ?_
    rw [dl.callbackBlocks_didComplete]
    refine and_congr_right fun ho => ?_
    rw [DownloaderOperation.collects_didComplete (List.ne_nil_of_mem ho) res, hst]
    rfl
  | report res hst => exact hp.report hd hst
  | done hst =>
    exact hset dl.done rfl rfl (by simp [DownloaderOperation.done])
      (by simp [DownloaderOperation.done, hst, Stage.collects])
  | completionBlock hst =>
    obtain ⟨hpl, hcar⟩ := hset { dl with stage := .finished true } rfl rfl (fun _ h => h)
      (by simp [hst, Stage.collects])
    exact ⟨hpl.unregister dl.url, hcar⟩

theorem early_addHandlers {o : OperationId} {d : DownloadId} (ha : s.adding = some (o, d)) :
    s.early = (s.addHandlers o d).early ++ [o] := by
  simp [Images.early, Images.addHandlers, ha]

theorem downloads_addHandlers {d : DownloadId} {dl : DownloaderOperation}
    (hd : s.downloads d = some dl) (o : OperationId) (d' : DownloadId) :
    (s.addHandlers o d).downloads d' = if d' = d
      then some { dl with callbackBlocks := dl.callbackBlocks ++ [o] } else s.downloads d' := by
  by_cases he : d' = d <;> simp [Images.addHandlers, he, hd]

theorem tokenOf_addHandlers {o : OperationId} (ho : s.tokenOf o = some false) (d : DownloadId)
    (o' : OperationId) :
    (s.addHandlers o d).tokenOf o' = if o' = o then some true else s.tokenOf o' := by
  obtain ⟨op, hop, -⟩ := Option.map_eq_some_iff.mp ho
  by_cases he : o' = o <;> simp [tokenOf, Images.addHandlers, he, hop]

section

variable {o : OperationId} {d : DownloadId}

theorem Placed.not_early_addHandlers (hp : Placed s) (ha : s.adding = some (o, d)) :
    o ∉ (s.addHandlers o d).early := by
  have hnd := hp.nodup
  rw [early_addHandlers ha, List.nodup_append] at hnd
  exact fun ho => hnd.2.2 o ho o List.mem_cons_self rfl

theorem Placed.addHandlers (hp : Placed s) (ha : s.adding = some (o, d)) :
    Placed (s.addHandlers o d) := by
  obtain ⟨dl, hd, hc⟩ := hp.adding o d ha
  have hearly := early_addHandlers ha
  have hnot := hp.not_early_addHandlers ha
  have htok := tokenOf_addHandlers (hp.early o (by simp [hearly])) d
  have hdl := downloads_addHandlers hd o
  have htrue : ∀ o', s.tokenOf o' = some true → (s.addHandlers o d).tokenOf o' = some true := by
    intro o' ht
    rw [htok]
    split_ifs
    · rfl
    · exact ht
  refine {
    running := fun o' ho' => ?_
    nodup := hp.nodup.sublist (hearly ▸ List.sublist_append_left _ _)
    early := fun o' ho' => ?_
    callbacks := fun d' dl' hd' o' ho' => ?_
    downloaded := fun l r hm o' ho' => htrue o' (hp.downloaded l r hm o' ho')
    cancelled := fun d' dl' hd' hc' => ?_
    registered := fun u d' hu => ?_
    adding := by simp [Images.addHandlers] }
  · obtain ⟨op', hop', hc'⟩ := hp.running o' ho'
    by_cases he : o' = o
    · subst he
      exact ⟨{ op' with downloadToken := true }, by simp [Images.addHandlers, hop'], hc'⟩
    · exact ⟨op', by simpa [Images.addHandlers, he] using hop', hc'⟩
  · have hne : o' ≠ o := by
      rintro rfl
      exact hnot ho'
    rw [htok, if_neg hne]
    exact hp.early o' (hearly ▸ List.mem_append_left _ ho')
  · rw [hdl] at hd'
    split_ifs at hd' with he
    · obtain rfl := Option.some.inj hd'
      rcases List.mem_append.mp ho' with ho' | ho'
      · exact htrue o' (hp.callbacks d dl hd o' ho')
      · rw [htok, if_pos (List.mem_singleton.mp ho')]
    · exact htrue o' (hp.callbacks d' dl' hd' o' ho')
  · rw [hdl] at hd'
    split_ifs at hd' with he
    · obtain rfl := Option.some.inj hd'
      simp [hc] at hc'
    · exact hp.cancelled d' dl' hd' hc'
  · obtain ⟨dl', hd', hdu⟩ := hp.registered u d' hu
    rw [hdl]
    split_ifs with he
    · obtain rfl : dl = dl' := by simpa [he, hd] using hd'
      exact ⟨_, rfl, hdu⟩
    · exact ⟨dl', hd', hdu⟩

/-- The load goes on, unless the download has collected its callbacks already. -/
theorem Placed.underWay_addHandlers (hp : Placed s) (ha : s.adding = some (o, d))
    (o' : OperationId) : (s.addHandlers o d).UnderWay o' ↔ s.UnderWay o' ∧
      ¬ (o' = o ∧ ∃ dl, s.downloads d = some dl ∧ dl.stage.collects = false) := by
  obtain ⟨dl, hd, hc⟩ := hp.adding o d ha
  have hearly := early_addHandlers ha
  have hnot := hp.not_early_addHandlers ha
  have hmem : o ∈ s.early := by simp [hearly]
  have hdl := downloads_addHandlers hd o
  have hself := (hdl d).trans (if_pos rfl)
  by_cases he : o' = o
  · subst he
    -- before this step the load waits nowhere else, and has no token
    have hno : ¬ s.Awaits o' := by
      have htok := hp.early o' hmem
      rintro (⟨d', dl', hd', ho', -⟩ | ⟨l, r, hm, ho'⟩)
      · exact absurd (htok.symm.trans (hp.callbacks d' dl' hd' o' ho')) (by simp)
      · exact absurd (htok.symm.trans (hp.downloaded l r hm o' ho')) (by simp)
    have hiff : (s.addHandlers o' d).UnderWay o' ↔ dl.stage.collects = true := by
      constructor
      · rintro (ho | ⟨d', dl', hd', ho, hst⟩ | hm)
        · exact absurd ho hnot
        · rw [hdl] at hd'
          split_ifs at hd'
          · obtain rfl := Option.some.inj hd'
            exact hst
          · exact absurd (.inl ⟨d', dl', hd', ho, hst⟩) hno
        · exact absurd (.inr hm) hno
      · intro hst
        exact .inr (.inl ⟨d, _, hself, by simp, hst⟩)
    rw [hiff]
    simp [UnderWay, hmem, hd]
  · have haw : (s.addHandlers o d).Awaits o' ↔ s.Awaits o' := by
      refine or_congr_left ⟨?_, ?_⟩
      · rintro ⟨d', dl', hd', ho, hst⟩
        rw [hdl] at hd'
        split_ifs at hd' with hdd
        · obtain rfl := Option.some.inj hd'
          exact ⟨d, dl, hd, by simpa [he] using ho, hst⟩
        · exact ⟨d', dl', hd', ho, hst⟩
      · rintro ⟨d', dl', hd', ho, hst⟩
        by_cases hdd : d' = d
        · obtain rfl : dl = dl' := by simpa [hdd, hd] using hd'
          exact ⟨d, _, hself, List.mem_append_left _ ho, hst⟩
        · exact ⟨d', dl', by rw [hdl, if_neg hdd]; exact hd', ho, hst⟩
    simp [UnderWay, haw, hearly, he]

end

end Images

end Mioto
