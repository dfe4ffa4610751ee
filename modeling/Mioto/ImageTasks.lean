import Mioto.ImageLoads
import Mathlib.Data.List.Perm.Subperm

/-! What is asked of the network. The downloader keeps one download for each URL, but the
completion block of a download takes the entry of its URL out of the table without looking
whose it is. -/

namespace Mioto

namespace DownloaderOperation

/-- The download has or may get a task whose answer counts. -/
def live (dl : DownloaderOperation) : Bool := !dl.isFinished && !dl.cancelled

theorem live_cancelInternal (dl : DownloaderOperation) : dl.cancelInternal.live = false := by
  unfold cancelInternal
  split
  · next hst => simp [live, isFinished, hst]
  · simp [live, isFinished]
  · simp [live]

theorem live_of_cancel {dl : DownloaderOperation} {token : OperationId}
    (h : (dl.cancel token).1.live = true) : dl.live = true ∧ (dl.cancel token).2 = false := by
  unfold cancel at h ⊢
  split_ifs at h ⊢
  · rw [live_cancelInternal] at h
    cases h
  · exact ⟨h, rfl⟩

theorem waiting_of_cancel {dl : DownloaderOperation} {token : OperationId}
    (hst : (dl.cancel token).1.stage = .waiting) (hc : (dl.cancel token).1.cancelled = false) :
    dl.stage = .waiting ∧ dl.cancelled = false := by
  unfold cancel at hst hc
  split_ifs at hst hc
  · unfold cancelInternal at hst hc
    split at hst <;> simp_all
  · exact ⟨hst, hc⟩

theorem live_of_start {dl : DownloaderOperation} (h : dl.start.live = true)
    (hst : dl.stage = .waiting) : dl.live = true := by
  unfold start at h
  split_ifs at h with hc
  · simp [live, isFinished] at h
  · simp [live, isFinished, hst, hc]

theorem live_of_didComplete {dl : DownloaderOperation} {r : SessionResult}
    (h : (dl.didComplete r).live = true) (hst : dl.stage = .executing) : dl.live = true := by
  have hc : dl.cancelled = false := by
    simpa using (Bool.and_eq_true_iff.mp h).2
  simp [live, isFinished, hst, hc]

end DownloaderOperation

namespace Images

def LiveFor (s : Images) (url : String) (d : DownloadId) : Prop :=
  ∃ dl, s.downloads d = some dl ∧ dl.url = url ∧ dl.live = true

/-- A download that is live after the change is in the table, or was live and out of it before. -/
def Tracks (s s' : Images) : Prop :=
  ∀ url d, s'.LiveFor url d →
    s'.URLOperations url = some d ∨ (s.LiveFor url d ∧ s.URLOperations url ≠ some d)

theorem Tracks.of_live {s s' : Images} (hu : s'.URLOperations = s.URLOperations)
    (hl : ∀ url d, s'.LiveFor url d → s.LiveFor url d) : Tracks s s' := by
  intro url d h
  by_cases hd : s.URLOperations url = some d
  · exact .inl (hu ▸ hd)
  · exact .inr ⟨hl url d h, hd⟩

theorem Tracks.of_same {s s' : Images} (hu : s'.URLOperations = s.URLOperations)
    (hd : s'.downloads = s.downloads) : Tracks s s' :=
  .of_live hu fun _ _ ⟨dl, hdl, h⟩ => ⟨dl, hd ▸ hdl, h⟩

theorem SameLoads.tracks {s s' : Images} (h : SameLoads s s') : Tracks s s' :=
  .of_same h.URLOperations h.downloads

theorem Tracks.trans {s s' s'' : Images} (h : Tracks s s') (h' : Tracks s' s'') :
    Tracks s s'' := by
  intro url d hl
  rcases h' url d hl with hd | ⟨hl', hd'⟩
  · exact .inl hd
  · exact .inr ((h url d hl').resolve_left hd')

variable {s : Images}

theorem tracks_setDownload {d : DownloadId} {dl dl' : DownloaderOperation}
    (hd : s.downloads d = some dl) (hu : dl'.url = dl.url) (hl : dl'.live = true → dl.live = true) :
    Tracks s (s.setDownload d dl') := by
  refine .of_live rfl fun url d' ⟨dl'', hd', hurl, hlive⟩ => ?_
  by_cases he : d' = d
  · obtain rfl : dl' = dl'' := by simpa [setDownload, he] using hd'
    exact ⟨dl, he ▸ hd, hu ▸ hurl, hl hlive⟩
  · exact ⟨dl'', by simpa [setDownload, he] using hd', hurl, hlive⟩

theorem tracks_cancelDownload (s : Images) (url : String) (o : OperationId) :
    Tracks s (s.cancelDownload url o) := by
  unfold cancelDownload
  cases hu : s.URLOperations url with
  | none => exact .of_same rfl rfl
  | some d =>
    cases hd : s.downloads d with
    | none => simpa only [hd] using Tracks.of_same rfl rfl
    | some dl =>
      simp only [hd]
      rintro url' d' ⟨dl', hd', hurl, hl⟩
      by_cases he : d' = d
      · subst he
        obtain rfl : (dl.cancel o).1 = dl' := by simpa using hd'
        obtain ⟨hlive, hkept⟩ := DownloaderOperation.live_of_cancel hl
        simp only [hkept]
        by_cases hreg : s.URLOperations url' = some d'
        · exact .inl hreg
        · exact .inr ⟨⟨dl, hd, by simpa using hurl, hlive⟩, hreg⟩
      · have hlive : s.LiveFor url' d' := ⟨dl', by simpa [he] using hd', hurl, hl⟩
        by_cases hreg : s.URLOperations url' = some d'
        · have hne : url' ≠ url := by
            rintro rfl
            exact he (Option.some.inj (hreg.symm.trans hu))
          refine .inl ?_
          split_ifs
          · simpa [hne] using hreg
          · exact hreg
        · exact .inr ⟨hlive, hreg⟩

theorem tracks_cancelImageLoad (s : Images) (w : ImageView) : Tracks s (s.cancelImageLoad w) := by
  unfold cancelImageLoad
  split
  · exact .of_same rfl rfl
  · next o _ =>
    split
    · exact .of_same rfl rfl
    · next op _ =>
      unfold cancelOperation
      split_ifs
      · have hset : Tracks s (s.setOperation o { op with cancelled := true }) := .of_same rfl rfl
        exact hset.trans ((tracks_cancelDownload _ op.url o).trans (.of_same rfl rfl))
      · exact .of_same rfl rfl

theorem tracks_loadImage (s : Images) (v : ViewId) (url : String) (o : OperationId) :
    Tracks s (s.loadImage v url o).1 := by
  have hs : Tracks s (s.setOperation o ⟨v, url, false, false⟩) := .of_same rfl rfl
  unfold loadImage
  simp only
  split_ifs
  · exact hs.trans (sameLoads_complete _ o _ none).tracks
  · split
    · exact hs.trans (sameLoads_complete _ o _ _).tracks
    · exact .of_same rfl rfl

/-- A download that is replaced in the table has finished. -/
theorem tracks_addProgressCallback (s : Images) (o : OperationId) (url : String)
    (fresh : DownloadId) : Tracks s (s.addProgressCallback o url fresh) := by
  unfold addProgressCallback
  split
  · exact .of_same rfl rfl
  · next hnone =>
    rintro url' d ⟨dl, hd, hurl, hl⟩
    by_cases he : d = fresh
    · obtain rfl : _ = dl := by simpa [he] using hd
      exact .inl (by simp [he, ← hurl])
    · have hd' : s.downloads d = some dl := by simpa [he] using hd
      by_cases hreg : s.URLOperations url' = some d
      · have hne : url' ≠ url := by
          rintro rfl
          have hfin := (Bool.and_eq_true_iff.mp hl).1
          have hany := Option.filter_eq_none_iff.mp hnone d hreg
          simp [hd', hfin] at hany
        exact .inl (by simpa [hne] using hreg)
      · exact .inr ⟨⟨dl, hd', hurl, hl⟩, hreg⟩

theorem tracks_queried (s : Images) (o : OperationId) (image : Option UIImage)
    (fresh : DownloadId) : Tracks s (s.queried o image fresh).1 := by
  unfold queried
  split
  · exact .of_same rfl rfl
  · next op _ =>
    split_ifs
    · exact .of_same rfl rfl
    · cases image with
      | some x => exact (sameLoads_complete s o op _).tracks.trans (.of_same rfl rfl)
      | none => exact tracks_addProgressCallback s o op.url fresh

theorem tracks_runJob (s : Images) (j : Job) : Tracks s (s.runJob j) := by
  cases j with
  | store => exact .of_same rfl rfl
  | query o =>
    simp only [runJob]
    split
    · exact .of_same rfl rfl
    · split_ifs <;> exact .of_same rfl rfl

/-- The entry of another download that the completion block of `d` takes out of the table while
that download is live. -/
def orphan (s : Images) (url : String) : ImageEvent → Option DownloadId
  | .completionBlock d =>
    if (s.downloads d).any (·.url = url) then
      (s.URLOperations url).filter fun d' => (s.downloads d').any (·.live)
    else none
  | _ => none

theorem tracks_completionBlock {d : DownloadId} {dl : DownloaderOperation}
    (hd : s.downloads d = some dl) {url : String} {d' : DownloadId}
    (hl : LiveFor { s.setDownload d { dl with stage := .finished true } with
      URLOperations := Function.update s.URLOperations dl.url none } url d') :
    (url ≠ dl.url ∧ s.URLOperations url = some d') ∨
      (s.LiveFor url d' ∧ s.URLOperations url ≠ some d') ∨
        s.orphan url (.completionBlock d) = some d' := by
  obtain ⟨dl', hd', hurl, hlive⟩ := hl
  have he : d' ≠ d := by
    rintro rfl
    obtain rfl : _ = dl' := by simpa [setDownload] using hd'
    simp [DownloaderOperation.live, DownloaderOperation.isFinished] at hlive
  have hd'' : s.downloads d' = some dl' := by simpa [setDownload, he] using hd'
  by_cases hreg : s.URLOperations url = some d'
  · by_cases hu : url = dl.url
    · subst hu
      exact .inr (.inr (by simp [orphan, hd, hreg, hd'', hlive]))
    · exact .inl ⟨hu, hreg⟩
  · exact .inr (.inl ⟨⟨dl', hd'', hurl, hlive⟩, hreg⟩)

theorem tracks_advance {d : DownloadId} {dl : DownloaderOperation} (hd : s.downloads d = some dl)
    {e : ImageEvent} {r : ImageOutcome} (hr : Advances s d dl e r) :
    Tracks s r.1 ∨ e = .completionBlock d := by
  cases hr with
  | start hst =>
    exact .inl (tracks_setDownload hd (by simp) fun hl => DownloaderOperation.live_of_start hl hst)
  | didComplete res hst =>
    exact .inl (tracks_setDownload hd (by simp) fun hl =>
      DownloaderOperation.live_of_didComplete hl hst)
  | report res hst =>
    have hset : Tracks s (s.setDownload d { dl with stage := .reported }) :=
      tracks_setDownload hd rfl fun hl => by
        simpa [DownloaderOperation.live, DownloaderOperation.isFinished, hst] using hl
    exact .inl (hset.trans (.of_same rfl rfl))
  | done =>
    refine .inl (tracks_setDownload hd rfl fun hl => ?_)
    simp [DownloaderOperation.live, DownloaderOperation.isFinished, DownloaderOperation.done] at hl
  | completionBlock => exact .inr rfl

theorem tracks_addHandlers (o : OperationId) (d : DownloadId) : Tracks s (s.addHandlers o d) := by
  refine .of_live rfl fun url d' ⟨dl, hd', hurl, hl⟩ => ?_
  by_cases he : d' = d
  · subst he
    obtain ⟨dl₀, hd₀, rfl⟩ := Option.map_eq_some_iff.mp
      (show (s.downloads d').map _ = some dl by simpa [Images.addHandlers] using hd')
    exact ⟨dl₀, hd₀, hurl, hl⟩
  · exact ⟨dl, by simpa [Images.addHandlers, he] using hd', hurl, hl⟩

/-- A download that is live after a step is in the table, or was live and out of it before, or
its entry has just been taken out by the completion block of another. -/
theorem tracks_step {e : ImageEvent} {r : ImageOutcome} (hr : s.step e = some r) {url : String}
    {d : DownloadId} (hl : r.1.LiveFor url d) :
    r.1.URLOperations url = some d ∨ (s.LiveFor url d ∧ s.URLOperations url ≠ some d) ∨
      s.orphan url e = some d := by
  have htracks : Tracks s r.1 → r.1.URLOperations url = some d ∨
      (s.LiveFor url d ∧ s.URLOperations url ≠ some d) ∨ s.orphan url e = some d :=
    fun h => (h url d hl).imp_right .inl
  cases step_does hr with
  | @setImageWithURL v u o w =>
    have hblank : ∀ w', Tracks s ((s.cancelImageLoad w).setView v w') :=
      fun _ => (tracks_cancelImageLoad s w).trans (.of_same rfl rfl)
    cases u with
    | none => exact htracks (hblank _)
    | some u => exact htracks ((hblank _).trans (tracks_loadImage _ v u o))
  | setImage | release | evict | expire => exact htracks (.of_same rfl rfl)
  | @queried fresh o image bs =>
    have hpop : Tracks s { s with mainQueue := bs } := .of_same rfl rfl
    exact htracks (hpop.trans (tracks_queried _ o image fresh))
  | @downloaded _ l res bs =>
    have hpop : Tracks s { s with mainQueue := bs } := .of_same rfl rfl
    exact htracks (hpop.trans (sameLoads_runAll_downloaded res l _).tracks)
  | @addHandlers o d' => exact htracks (tracks_addHandlers o d')
  | @io j js =>
    have hpop : Tracks s { s with ioQueue := js } := .of_same rfl rfl
    exact htracks (hpop.trans (tracks_runJob _ j))
  | advance hd hadv =>
    rcases tracks_advance hd hadv with ht | rfl
    · exact htracks ht
    · cases hadv
      rcases tracks_completionBlock hd hl with ⟨hne, hreg⟩ | hrest
      · exact .inl (by simpa [hne] using hreg)
      · exact .inr hrest

/-! ### Whole runs -/

def orphans (h : ImageHistory) (url : String) : List DownloadId :=
  h.filterMap fun m => m.before.orphan url m.event

theorem live_known {s₀ s : Images} {h : ImageHistory} (hl : Launch s₀) (hr : machine.Run s₀ h s)
    {url : String} {d : DownloadId} (hd : s.LiveFor url d) :
    s.URLOperations url = some d ∨ d ∈ orphans h url := by
  induction hr with
  | nil =>
    obtain ⟨dl, hdl, -⟩ := hd
    simp [hl.downloads d] at hdl
  | @cons h m _ hf ih =>
    have hgrow : d ∈ orphans h url → d ∈ orphans (m :: h) url := fun hd => by
      obtain ⟨m', hm', ho⟩ := List.mem_filterMap.mp hd
      exact List.mem_filterMap.mpr ⟨m', List.mem_cons_of_mem m hm', ho⟩
    rcases tracks_step (r := (m.after, m.out)) hf hd with hreg | ⟨hlive, hreg⟩ | horphan
    · exact .inl hreg
    · exact .inr (hgrow ((ih hlive).resolve_left hreg))
    · exact .inr (List.mem_filterMap.mpr ⟨m, List.mem_cons_self, horphan⟩)

/-- There are never more live downloads for a URL than one and those whose entry the completion
block of an earlier download has taken for its own. -/
theorem downloads_bounded {s₀ s : Images} {h : ImageHistory} (hl : Launch s₀)
    (hr : machine.Run s₀ h s) (url : String) {ds : List DownloadId} (hnd : ds.Nodup)
    (hds : ∀ d ∈ ds, s.LiveFor url d) : ds.length ≤ 1 + (orphans h url).length := by
  have hsub : ds ⊆ (s.URLOperations url).toList ++ orphans h url := fun d hd => by
    rcases live_known hl hr (hds d hd) with hreg | horphan
    · simp [hreg]
    · exact List.mem_append_right _ horphan
  have hle := (List.subperm_of_subset hnd hsub).length_le
  have hone : (s.URLOperations url).toList.length ≤ 1 := by cases s.URLOperations url <;> simp
  rw [List.length_append] at hle
  omega

/-- The first download ends without a picture, and its completion block comes after the second
one has taken its place in the table. -/
def lateCompletionBlock : List ImageEvent :=
  [.setImageWithURL 0 (some "a") 0, .io, .main 0, .addHandlers, .start 0,
    .didComplete 0 (.error (-1001)), .report 0, .done 0, .setImageWithURL 1 (some "a") 1, .io,
    .main 1, .main 1, .addHandlers, .completionBlock 0, .start 1, .setImageWithURL 2 (some "a") 2,
    .io, .main 2, .addHandlers, .start 2]

theorem two_downloads_at_once :
    let r := (machine.exec [] (launch fun _ => none) lateCompletionBlock).get (by decide)
    (∀ d ∈ [1, 2], r.2.LiveFor "a" d) ∧ orphans r.1 "a" = [1] ∧
      [1, 2].length ≤ 1 + (orphans r.1 "a").length := by
  intro r
  have hlive : ∀ d ∈ [1, 2], r.2.LiveFor "a" d := by
    intro d hd
    rcases List.mem_pair.mp hd with rfl | rfl
    · exact ⟨⟨"a", [1], false, .executing⟩, by decide, rfl, rfl⟩
    · exact ⟨⟨"a", [2], false, .executing⟩, by decide, rfl, rfl⟩
  exact ⟨hlive, by decide, downloads_bounded (launch_launch fun _ => none)
    (Machine.exec_run (by decide)) "a" (by decide) hlive⟩

/-! ### URLs that have failed -/

/-- The URL has failed, no load of it is running and no download of it waits for its task. -/
structure Settled (url : String) (s : Images) : Prop where
  failed : url ∈ s.failedURLs
  running : ∀ o ∈ s.runningOperations, ∃ u, s.urlOf o = some u ∧ u ≠ url
  waiting : ∀ d dl, s.downloads d = some dl → dl.stage = .waiting → dl.cancelled = false →
    dl.url ≠ url

/-- The network is not asked for the URL, and no load of it gets a picture. -/
def Unasked (url : String) (s : Images) : ImageOutput → Prop
  | .resumed u => u ≠ url
  | .completed o (some _) => s.urlOf o ≠ some url
  | .completed _ none => True

variable {url : String}

theorem SameLoads.settled {s s' : Images} (h : SameLoads s s') (hs : Settled url s)
    (hf : url ∈ s'.failedURLs) : Settled url s' where
  failed := hf
  running o ho := by
    rw [urlOf, h.operations]
    exact hs.running o (h.running ho)
  waiting d dl hd := hs.waiting d dl (h.downloads ▸ hd)

theorem Settled.setDownload (h : Settled url s) {d : DownloadId} {dl dl' : DownloaderOperation}
    (hd : s.downloads d = some dl) (hu : dl'.url = dl.url)
    (hw : dl'.stage = .waiting → dl'.cancelled = false →
      dl.stage = .waiting ∧ dl.cancelled = false) : Settled url (s.setDownload d dl') :=
  { h with
    waiting := fun d' dl'' hd' hst hc => by
      by_cases he : d' = d
      · obtain rfl : dl' = dl'' := by simpa [Images.setDownload, he] using hd'
        rw [hu]
        exact h.waiting d dl hd (hw hst hc).1 (hw hst hc).2
      · exact h.waiting d' dl'' (by simpa [Images.setDownload, he] using hd') hst hc }

theorem failedURLs_complete (s : Images) (o : OperationId) (op : CombinedOperation)
    (image : Option UIImage) : (s.complete o op image).1.failedURLs = s.failedURLs := by
  unfold complete
  split_ifs
  · rfl
  · simp only
    split <;> rfl

theorem Settled.complete (h : Settled url s) (o : OperationId) (op : CombinedOperation)
    (image : Option UIImage) : Settled url (s.complete o op image).1 :=
  (sameLoads_complete s o op image).settled h (failedURLs_complete s o op image ▸ h.failed)

/-- Whose block is called is told by what it loads. -/
theorem unasked_complete {o : OperationId} {op : CombinedOperation} {image : Option UIImage}
    (hop : s.operations o = some op) (hu : ∀ x ∈ image, op.url ≠ url) :
    ∀ b ∈ (s.complete o op image).2, Unasked url s b := by
  unfold Images.complete
  split_ifs
  · simp
  · intro b hb
    obtain rfl := List.mem_singleton.mp hb
    cases image with
    | none => trivial
    | some x => simpa [Unasked, urlOf, hop] using hu x rfl

/-- What the blocks of the main queue do for loads of other URLs. -/
def Passes (url : String) (s : Images) (r : ImageOutcome) : Prop :=
  Settled url s → r.1.operations = s.operations ∧ Settled url r.1 ∧ ∀ b ∈ r.2, Unasked url s b

theorem passes_closed (url : String) : Sequence.Closed (Passes url) where
  refl s hs := ⟨rfl, hs, by simp⟩
  trans h h' hs := by
    obtain ⟨ho, hs', hb⟩ := h hs
    obtain ⟨ho', hs'', hb'⟩ := h' hs'
    refine ⟨ho'.trans ho, hs'', List.forall_mem_append.mpr ⟨hb, fun b hm => ?_⟩⟩
    have hun := hb' b hm
    cases b with
    | resumed => exact hun
    | completed o image =>
      cases image with
      | none => trivial
      | some x => simpa only [Unasked, urlOf, ho] using hun

theorem Settled.removeRunning (h : Settled url s) (o : OperationId) :
    Settled url (s.removeRunning o) := (sameLoads_removeRunning s o).settled h h.failed

/-- A load that is not gone loads another URL. -/
theorem Settled.url_ne (h : Settled url s) {o : OperationId} {op : CombinedOperation}
    (hop : s.operations o = some op) (hg : s.isGone o op = false) : op.url ≠ url := by
  obtain ⟨hrun, -⟩ : o ∈ s.runningOperations ∧ op.cancelled = false := by simpa [isGone] using hg
  obtain ⟨u, hu, hne⟩ := h.running o hrun
  obtain rfl : op.url = u := by simpa [urlOf, hop] using hu
  exact hne

theorem passes_downloaded (url : String) (r : LoadResult) (s : Images) (o : OperationId) :
    Passes url s (downloaded r s o) := by
  intro h
  unfold downloaded
  cases hop : s.operations o with
  | none => exact ⟨rfl, h, by simp⟩
  | some op =>
    simp only
    split_ifs with hg
    · exact ⟨rfl, h.removeRunning o, by simp⟩
    · have hne := h.url_ne hop (by simpa using hg)
      cases r with
      | error code =>
        have hc := h.complete o op none
        have hblock : Settled url { (s.complete o op none).1 with
            failedURLs := if shouldBlockFailedURL code then op.url :: s.failedURLs
              else s.failedURLs } := by
          refine (sameLoads_blockURLs _ _).settled hc ?_
          split_ifs
          · exact List.mem_cons_of_mem _ h.failed
          · exact h.failed
        exact ⟨operations_complete s o op none, hblock.removeRunning o,
          unasked_complete hop (by simp)⟩
      | image x =>
        have hstore : Settled url (s.storeImage op.url x) :=
          (sameLoads_storeImage s op.url x).settled h h.failed
        exact ⟨operations_complete (s.storeImage op.url x) o op _,
          (hstore.complete o op _).removeRunning o,
          unasked_complete (s := s.storeImage op.url x) hop fun _ _ => hne⟩

theorem Settled.addProgressCallback (h : Settled url s) (o : OperationId) {u : String}
    (hu : u ≠ url) (fresh : DownloadId) : Settled url (s.addProgressCallback o u fresh) := by
  unfold Images.addProgressCallback
  split
  · exact { h with }
  · refine { h with waiting := fun d dl hd hst hc => ?_ }
    by_cases he : d = fresh
    · obtain rfl : _ = dl := by simpa [he] using hd
      exact hu
    · exact h.waiting d dl (by simpa [he] using hd) hst hc

theorem passes_queried (url : String) (s : Images) (o : OperationId) (image : Option UIImage)
    (fresh : DownloadId) : Passes url s (s.queried o image fresh) := by
  intro h
  unfold queried
  cases hop : s.operations o with
  | none => exact ⟨rfl, h, by simp⟩
  | some op =>
    simp only
    split_ifs with hg
    · exact ⟨rfl, h.removeRunning o, by simp⟩
    · have hne := h.url_ne hop (by simpa using hg)
      cases image with
      | some x =>
        exact ⟨operations_complete s o op _, (h.complete o op _).removeRunning o,
          unasked_complete hop fun _ _ => hne⟩
      | none =>
        refine ⟨?_, h.addProgressCallback o hne fresh, by simp⟩
        simp only [addProgressCallback]
        split <;> rfl

theorem Settled.cancelDownload (h : Settled url s) (u : String) (o : OperationId) :
    Settled url (s.cancelDownload u o) := by
  unfold Images.cancelDownload
  cases hu : s.URLOperations u with
  | none => exact h
  | some d =>
    cases hd : s.downloads d with
    | none => simpa only [hd] using h
    | some dl =>
      simp only [hd]
      have hset : Settled url (s.setDownload d (dl.cancel o).1) :=
        h.setDownload hd (by simp) DownloaderOperation.waiting_of_cancel
      exact { hset with }

theorem Settled.cancelImageLoad (h : Settled url s) (w : ImageView) :
    Settled url (s.cancelImageLoad w) := by
  unfold Images.cancelImageLoad
  split
  · exact h
  · next o _ =>
    split
    · exact h
    · next op hop =>
      have hs : Settled url
          ((s.setOperation o { op with cancelled := true }).removeRunning o) := by
        refine { h with running := fun o' ho' => ?_ }
        obtain ⟨hmem, hne⟩ := List.mem_filter.mp ho'
        simpa [urlOf, Images.setOperation, Images.removeRunning, bne_iff_ne.mp hne] using
          h.running o' hmem
      unfold Images.cancelOperation
      simp only
      split_ifs
      · rw [removeRunning_cancelDownload]
        exact hs.cancelDownload op.url o
      · exact hs

/-- A load of the URL is told at once that there is no picture. -/
theorem settled_loadImage (h : Settled url s) {o : OperationId} (ho : s.operations o = none)
    (v : ViewId) (u : String) : Settled url (s.loadImage v u o).1 ∧
      ∀ b ∈ (s.loadImage v u o).2, Unasked url (s.loadImage v u o).1 b := by
  have hs : Settled url (s.setOperation o ⟨v, u, false, false⟩) := by
    refine { h with running := fun o' ho' => ?_ }
    obtain ⟨u', hu', hne'⟩ := h.running o' ho'
    have hne : o' ≠ o := by
      rintro rfl
      simp [urlOf, ho] at hu'
    exact ⟨u', by simpa [urlOf, Images.setOperation, hne] using hu', hne'⟩
  have hop : (s.setOperation o ⟨v, u, false, false⟩).operations o =
      some ⟨v, u, false, false⟩ := Function.update_self o _ _
  have hcomplete : ∀ image : Option UIImage, (∀ x ∈ image, u ≠ url) →
      Settled url ((s.setOperation o ⟨v, u, false, false⟩).complete o
          ⟨v, u, false, false⟩ image).1 ∧
        ∀ b ∈ ((s.setOperation o ⟨v, u, false, false⟩).complete o ⟨v, u, false, false⟩ image).2,
          Unasked url ((s.setOperation o ⟨v, u, false, false⟩).complete o
            ⟨v, u, false, false⟩ image).1 b := by
    intro image hx
    refine ⟨hs.complete o _ image, fun b hb => ?_⟩
    have hun := unasked_complete hop hx b hb
    cases b with
    | resumed => exact hun
    | completed o' image' =>
      cases image' with
      | none => trivial
      | some x => simpa only [Unasked, urlOf, operations_complete] using hun
  unfold Images.loadImage
  simp only
  split_ifs with hskip
  · exact hcomplete none (by simp)
  · have hne : u ≠ url := by
      rintro rfl
      exact hskip (.inr h.failed)
    split
    · exact hcomplete _ fun _ _ => hne
    · refine ⟨{ hs with running := fun o' ho' => ?_ }, by simp⟩
      rcases List.mem_append.mp ho' with ho' | ho'
      · exact hs.running o' ho'
      · obtain rfl := List.mem_singleton.mp ho'
        exact ⟨u, by simp [urlOf, Images.setOperation], hne⟩

theorem Settled.runJob (h : Settled url s) (j : Job) : Settled url (s.runJob j) := by
  cases j with
  | store => exact { h with }
  | query o =>
    simp only [Images.runJob]
    split
    · exact h
    · split_ifs
      · exact h
      · exact { h with }

theorem Settled.addHandlers (h : Settled url s) (o : OperationId) (d : DownloadId) :
    Settled url (s.addHandlers o d) := by
  refine { h with running := fun o' ho' => ?_, waiting := fun d' dl hd' hst hc => ?_ }
  · have hrun := h.running o' ho'
    by_cases he : o' = o
    · subst he
      simpa [urlOf, Images.addHandlers, Option.map_map, Function.comp_def] using hrun
    · simpa [urlOf, Images.addHandlers, he] using hrun
  · by_cases he : d' = d
    · subst he
      obtain ⟨dl₀, hd₀, rfl⟩ := Option.map_eq_some_iff.mp
        (show (s.downloads d').map _ = some dl by simpa [Images.addHandlers] using hd')
      exact h.waiting d' dl₀ hd₀ hst hc
    · exact h.waiting d' dl (by simpa [Images.addHandlers, he] using hd') hst hc

theorem settled_advance (h : Settled url s) {d : DownloadId} {dl : DownloaderOperation}
    (hd : s.downloads d = some dl) {e : ImageEvent} {r : ImageOutcome}
    (hr : Advances s d dl e r) : Settled url r.1 ∧ ∀ b ∈ r.2, Unasked url r.1 b := by
  cases hr with
  | start hst =>
    refine ⟨h.setDownload hd (by simp) fun hst' _ => ?_, fun b hb => ?_⟩
    · unfold DownloaderOperation.start at hst'
      split_ifs at hst'
    · simp only at hb
      split_ifs at hb with hc
      · cases hb
      · obtain rfl := List.mem_singleton.mp hb
        exact h.waiting d dl hd hst (by simpa using hc)
  | didComplete res =>
    refine ⟨h.setDownload hd (by simp) fun hst' _ => ?_, by simp⟩
    cases res with
    | error => cases hst'
    | data image =>
      unfold DownloaderOperation.didComplete at hst'
      split_ifs at hst'
      cases image <;> cases hst'
  | report =>
    have hset : Settled url (s.setDownload d { dl with stage := .reported }) :=
      h.setDownload hd rfl (by simp)
    exact ⟨{ hset with }, by simp⟩
  | done => exact ⟨h.setDownload hd rfl (by simp [DownloaderOperation.done]), by simp⟩
  | completionBlock =>
    have hset : Settled url (s.setDownload d { dl with stage := .finished true }) :=
      h.setDownload hd rfl (by simp)
    exact ⟨{ hset with }, by simp⟩

theorem settled_step (h : Settled url s) {e : ImageEvent} {r : ImageOutcome}
    (hr : s.step e = some r) : Settled url r.1 ∧ ∀ b ∈ r.2, Unasked url r.1 b := by
  have hpasses : ∀ {s' : Images}, Settled url s' → Passes url s' r →
      Settled url r.1 ∧ ∀ b ∈ r.2, Unasked url r.1 b := fun {s'} h' hp => by
    obtain ⟨hops, hs, hb⟩ := hp h'
    refine ⟨hs, fun b hm => ?_⟩
    have hun := hb b hm
    cases b with
    | resumed => exact hun
    | completed o image =>
      cases image with
      | none => trivial
      | some x => simpa only [Unasked, urlOf, hops] using hun
  cases step_does hr with
  | @setImageWithURL v u o w _ _ ho =>
    have hblank : ∀ w', Settled url ((s.cancelImageLoad w).setView v w') :=
      fun w' => { h.cancelImageLoad w with }
    cases u with
    | none => exact ⟨hblank _, by simp [Images.setImageWithURL]⟩
    | some u =>
      have hfresh := (cancelImageLoad_operations s w o).mpr ho
      exact settled_loadImage (hblank _) hfresh v u
  | setImage | release | evict | expire => exact ⟨{ h with }, by simp⟩
  | @queried fresh o image bs =>
    have hpop : Settled url { s with mainQueue := bs } := { h with }
    exact hpasses hpop (passes_queried url _ o image fresh)
  | @downloaded _ l res bs =>
    have hpop : Settled url { s with mainQueue := bs } := { h with }
    exact hpasses hpop ((passes_closed url).runAll (fun s o _ => passes_downloaded url res s o) _)
  | @addHandlers o d => exact ⟨h.addHandlers o d, by simp⟩
  | @io j js =>
    have hpop : Settled url { s with ioQueue := js } := { h with }
    exact ⟨hpop.runJob j, by simp⟩
  | advance hd hadv => exact settled_advance h hd hadv

/-- A URL that has failed is never asked for again once the loads of it that ran have ended,
whichever views it is given to: no task is started for it and no load of it gets a picture. -/
theorem failed_not_asked_again {s' : Images} {h : ImageHistory} (hs : Settled url s)
    (hr : machine.Run s h s') : Settled url s' ∧ ∀ m ∈ h, ∀ b ∈ m.out, Unasked url m.after b := by
  induction hr with
  | nil => exact ⟨hs, by simp⟩
  | @cons h m _ hf ih =>
    obtain ⟨hset, hall⟩ := ih
    obtain ⟨hset', hout⟩ := settled_step (r := (m.after, m.out)) hset hf
    exact ⟨hset', List.forall_mem_cons.mpr ⟨hout, hall⟩⟩

def afterFailure : Images :=
  ((machine.exec [] (launch fun _ => none)
    [.setImageWithURL 0 (some "a") 0, .io, .main 0, .addHandlers, .start 0,
      .didComplete 0 (.error (-1100)), .report 0, .main 1]).map Prod.snd).getD
    (launch fun _ => none)

theorem downloads_afterFailure : afterFailure.downloads =
    Function.update (fun _ => none) 0 (some ⟨"a", [0], false, .reported⟩) := by
  have he : afterFailure.downloads = Function.update (Function.update (Function.update
      (Function.update (Function.update (fun _ => none) 0 (some ⟨"a", [], false, .waiting⟩))
        0 (some ⟨"a", [0], false, .waiting⟩)) 0 (some ⟨"a", [0], false, .executing⟩))
        0 (some ⟨"a", [0], false, .answered (.error (-1100))⟩))
        0 (some ⟨"a", [0], false, .reported⟩) := rfl
  simpa only [Function.update_idem] using he

/-- Two views ask for pictures after the URL of the first has failed. -/
def askAfterFailure : List ImageEvent :=
  [.setImageWithURL 0 (some "a") 1, .setImageWithURL 1 (some "b") 2, .done 0, .completionBlock 0,
    .io, .main 1, .addHandlers, .start 1]

theorem failed_left_alone :
    let r := (machine.exec [] afterFailure askAfterFailure).get (by decide)
    r.1.flatMap Move.out = [.resumed "b", .completed 1 none] ∧
      Settled "a" r.2 ∧ ∀ m ∈ r.1, ∀ b ∈ m.out, Unasked "a" m.after b := by
  intro r
  have hrunning : afterFailure.runningOperations = [] := by decide
  have hs : Settled "a" afterFailure := by
    refine ⟨by decide, by simp [hrunning], fun d dl hd hst _ => ?_⟩
    rw [downloads_afterFailure] at hd
    by_cases he : d = 0
    · subst he
      rw [Function.update_self, Option.some.injEq] at hd
      subst hd
      cases hst
    · simp [he] at hd
  exact ⟨by decide, failed_not_asked_again hs (Machine.exec_run (by decide))⟩

end Images

end Mioto
