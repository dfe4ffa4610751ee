import Mioto.ImageCompletions
import Mioto.Simulation
import Mathlib.Algebra.BigOperators.Finprod
import Mathlib.Data.Fintype.EquivFin

/-! What a picture leaves to do. Each load costs a bounded number of steps of the queues, the
downloads and the session, in whatever order they come; when all have been taken, the only loads
that still run are those that came to their download too late. -/

namespace Mioto

theorem finsum_update {ι : Type*} [DecidableEq ι] {f : ι → ℕ} (hf : f.support.Finite) (i : ι)
    (n : ℕ) : finsum (Function.update f i n) + f i = finsum f + n := by
  let t : Finset ι := insert i hf.toFinset
  have hi : i ∈ t := Finset.mem_insert_self i _
  have hsub : f.support ⊆ t := fun j hj =>
    Finset.mem_insert_of_mem (hf.mem_toFinset.mpr hj)
  have hsub' : (Function.update f i n).support ⊆ t := by
    intro j hj
    by_cases he : j = i
    · exact he ▸ hi
    · exact hsub (by simpa [he] using hj)
  rw [finsum_eq_sum_of_support_subset _ hsub, finsum_eq_sum_of_support_subset _ hsub',
    Finset.sum_update_of_mem hi, Finset.sdiff_singleton_eq_erase, ← Finset.add_sum_erase t f hi]
  omega

/-! ### The weights -/

/-- A query may end in a download. -/
def Job.weight : Job → ℕ
  | .query _ => 10
  | .store _ _ => 1

/-- Each callback of a download that ends with a picture stores it. -/
def Block.weight : Block → ℕ
  | .queried _ _ => 9
  | .downloaded l _ => 1 + l.length

def Stage.weight : Stage → ℕ
  | .waiting => 6
  | .executing => 5
  | .answered _ => 4
  | .reported => 2
  | .finished false => 1
  | .finished true => 0

namespace DownloaderOperation

def weight (dl : DownloaderOperation) : ℕ :=
  dl.stage.weight + if dl.stage.collects then dl.callbackBlocks.length else 0

theorem weight_eq {dl : DownloaderOperation} {st : Stage} (h : dl.stage = st) :
    dl.weight = st.weight + if st.collects then dl.callbackBlocks.length else 0 := by
  rw [weight, h]

theorem weight_cancelInternal (dl : DownloaderOperation) :
    dl.cancelInternal.weight ≤ dl.weight := by
  unfold cancelInternal
  split
  · exact le_rfl
  · next h =>
    rw [weight_eq h]
    simp [weight, Stage.weight, Stage.collects]
    omega
  · simp only [weight, List.length_nil, ite_self, Nat.add_zero]
    omega

theorem weight_cancel (dl : DownloaderOperation) (token : OperationId) :
    (dl.cancel token).1.weight ≤ dl.weight := by
  have hle := List.length_filter_le (· != token) dl.callbackBlocks
  unfold cancel
  split_ifs
  · refine (weight_cancelInternal _).trans ?_
    simp only [weight, List.length_nil, ite_self, Nat.add_zero]
    omega
  · simp only [weight]
    split_ifs <;> omega

theorem weight_start {dl : DownloaderOperation} (h : dl.stage = .waiting) :
    dl.start.weight + 1 ≤ dl.weight := by
  rw [weight_eq h]
  cases hc : dl.cancelled <;>
    simp +arith [start, hc, weight, Stage.weight, Stage.collects]

theorem weight_didComplete {dl : DownloaderOperation} (h : dl.stage = .executing)
    (r : SessionResult) : (dl.didComplete r).weight + 1 ≤ dl.weight := by
  have hanswered : ∀ r : LoadResult,
      DownloaderOperation.weight { dl with stage := .answered r } + 1 = dl.weight := by
    intro r
    rw [weight_eq h]
    simp only [weight, Stage.weight, Stage.collects]
    omega
  cases r with
  | error code => exact (hanswered _).le
  | data image =>
    unfold didComplete
    split_ifs with hc
    · rw [weight_eq h]
      simp [weight, hc, Stage.weight, Stage.collects]
    · cases image <;> exact (hanswered _).le

end DownloaderOperation

namespace Images

/-- What a table of downloads still has to do. -/
noncomputable def tableWeight (t : DownloadId → Option DownloaderOperation) : ℕ :=
  finsum fun d => (t d).elim 0 DownloaderOperation.weight

theorem tableWeight_update {t : DownloadId → Option DownloaderOperation}
    (hf : {d | t d ≠ none}.Finite) (d : DownloadId) (dl : DownloaderOperation) :
    tableWeight (Function.update t d (some dl)) + (t d).elim 0 DownloaderOperation.weight =
      tableWeight t + dl.weight := by
  have hsupport : (Function.support fun d => (t d).elim 0 DownloaderOperation.weight).Finite := by
    refine hf.subset fun d hd hnone => hd ?_
    simp only [hnone, Option.elim_none]
  have hupdate : (fun d' => (Function.update t d (some dl) d').elim 0 DownloaderOperation.weight) =
      Function.update (fun d => (t d).elim 0 DownloaderOperation.weight) d dl.weight := by
    funext d'
    by_cases he : d' = d
    · subst he
      simp
    · simp [he]
  rw [tableWeight, hupdate]
  exact finsum_update hsupport d dl.weight

/-- What the queues, the downloads and the session still have to do. -/
noncomputable def weight (s : Images) : ℕ :=
  (s.ioQueue.map Job.weight).sum + (s.mainQueue.map Block.weight).sum +
    s.adding.elim 0 (fun _ => 2) + tableWeight s.downloads

/-- Only finitely many downloads have been made. -/
def Finite (s : Images) : Prop := {d | s.downloads d ≠ none}.Finite

theorem finite_update {s s' : Images} (hf : s.Finite) {d : DownloadId}
    {dl : Option DownloaderOperation} (hd : s'.downloads = Function.update s.downloads d dl) :
    s'.Finite := by
  refine (hf.insert d).subset fun d' hd' => ?_
  by_cases he : d' = d
  · exact .inl he
  · exact .inr (by simpa [hd, he] using hd')

/-- `s'` has at most `n` more to do than `s`. -/
def Within (n : ℕ) (s s' : Images) : Prop := s.Finite → s'.Finite ∧ s'.weight ≤ s.weight + n

theorem Within.trans {n k : ℕ} {s s' s'' : Images} (h : Within n s s') (h' : Within k s' s'') :
    Within (n + k) s s'' := fun hf => by
  obtain ⟨hf', hw⟩ := h hf
  obtain ⟨hf'', hw'⟩ := h' hf'
  exact ⟨hf'', by omega⟩

theorem Within.mono {n k : ℕ} {s s' : Images} (h : Within n s s') (hn : n ≤ k) : Within k s s' :=
  fun hf => ⟨(h hf).1, (h hf).2.trans (Nat.add_le_add_left hn _)⟩

/-- The queues and downloads are the same. -/
theorem within_same {s s' : Images} (hio : s'.ioQueue = s.ioQueue)
    (hmain : s'.mainQueue = s.mainQueue) (hadd : s'.adding = s.adding)
    (hd : s'.downloads = s.downloads) : Within 0 s s' := fun hf => by
  refine ⟨by rwa [Finite, hd], ?_⟩
  simp only [weight, hio, hmain, hadd, hd]
  omega

theorem within_enqueue {s s' : Images} {j : Job} (hio : s'.ioQueue = s.ioQueue ++ [j])
    (hmain : s'.mainQueue = s.mainQueue) (hadd : s'.adding = s.adding)
    (hd : s'.downloads = s.downloads) : Within j.weight s s' := fun hf => by
  refine ⟨by rwa [Finite, hd], ?_⟩
  simp only [weight, hio, hmain, hadd, hd, List.map_append, List.sum_append, List.map_cons,
    List.map_nil, List.sum_cons, List.sum_nil]
  omega

theorem within_download {s s' : Images} {d : DownloadId} {dl dl' : DownloaderOperation}
    (hd : s.downloads d = some dl) (hw : dl'.weight ≤ dl.weight) (hio : s'.ioQueue = s.ioQueue)
    (hmain : s'.mainQueue = s.mainQueue) (hadd : s'.adding = s.adding)
    (hd' : s'.downloads = Function.update s.downloads d (some dl')) : Within 0 s s' := fun hf => by
  have ht := tableWeight_update hf d dl'
  rw [hd, Option.elim_some] at ht
  refine ⟨finite_update hf hd', ?_⟩
  simp only [weight, hio, hmain, hadd, hd']
  omega

/-! ### What each operation asks for -/

theorem within_cancelDownload (s : Images) (url : String) (o : OperationId) :
    Within 0 s (s.cancelDownload url o) := by
  unfold cancelDownload
  cases hu : s.URLOperations url with
  | none => exact within_same rfl rfl rfl rfl
  | some d =>
    cases hd : s.downloads d with
    | none =>
      simp only [hd]
      exact within_same rfl rfl rfl rfl
    | some dl =>
      simp only [hd]
      exact within_download hd (dl.weight_cancel o) rfl rfl rfl rfl

theorem within_cancelImageLoad (s : Images) (w : ImageView) : Within 0 s (s.cancelImageLoad w) := by
  unfold cancelImageLoad
  split
  · exact within_same rfl rfl rfl rfl
  · next o _ =>
    split
    · exact within_same rfl rfl rfl rfl
    · next op _ =>
      have hset : Within 0 s (s.setOperation o { op with cancelled := true }) :=
        within_same rfl rfl rfl rfl
      unfold cancelOperation
      simp only
      split_ifs
      · exact (hset.trans (within_cancelDownload _ op.url o)).trans (within_same rfl rfl rfl rfl)
      · exact hset.trans (within_same rfl rfl rfl rfl)

theorem within_complete (s : Images) (o : OperationId) (op : CombinedOperation)
    (image : Option UIImage) : Within 0 s (s.complete o op image).1 := by
  unfold complete
  split_ifs
  · exact within_same rfl rfl rfl rfl
  · cases image with
    | none => exact within_same rfl rfl rfl rfl
    | some x =>
      cases hw : s.views op.view <;> exact within_same rfl rfl rfl rfl

theorem within_loadImage (s : Images) (v : ViewId) (url : String) (o : OperationId) :
    Within 10 s (s.loadImage v url o).1 := by
  have hset : ∀ op, Within 0 s (s.setOperation o op) := fun _ => within_same rfl rfl rfl rfl
  have hcomplete : ∀ op image, Within 10 s ((s.setOperation o op).complete o op image).1 :=
    fun op image => ((hset op).trans (within_complete _ o op image)).mono (Nat.zero_le _)
  unfold loadImage
  simp only
  split_ifs
  · exact hcomplete _ none
  · split
    · exact hcomplete _ _
    · exact (within_enqueue (j := .query o) rfl rfl rfl rfl)

theorem within_setImageWithURL (s : Images) (v : ViewId) (w : ImageView) (url : Option String)
    (o : OperationId) : Within 10 s (s.setImageWithURL v w url o).1 := by
  have hblank : ∀ w', Within 0 s ((s.cancelImageLoad w).setView v w') := fun _ =>
    (within_cancelImageLoad s w).trans (within_same rfl rfl rfl rfl)
  cases url with
  | none => exact (hblank _).mono (Nat.zero_le _)
  | some u => exact (hblank _).trans (within_loadImage _ v u o)

theorem within_addProgressCallback {s : Images} (ha : s.adding = none) (o : OperationId)
    (url : String) {fresh : DownloadId} (hfresh : s.downloads fresh = none) :
    Within 8 s (s.addProgressCallback o url fresh) := by
  unfold addProgressCallback
  split
  · refine fun hf => ⟨hf, ?_⟩
    simp only [weight, ha, Option.elim_some, Option.elim_none]
    omega
  · refine fun hf => ⟨finite_update hf rfl, ?_⟩
    have ht := tableWeight_update hf fresh ⟨url, [], false, .waiting⟩
    have hw : DownloaderOperation.weight ⟨url, [], false, .waiting⟩ = 6 := rfl
    rw [hfresh, Option.elim_none, hw] at ht
    simp only [weight, ha, Option.elim_some, Option.elim_none]
    omega

theorem within_queried {s : Images} (ha : s.adding = none) (o : OperationId)
    (image : Option UIImage) {fresh : DownloadId} (hfresh : s.downloads fresh = none) :
    Within 8 s (s.queried o image fresh).1 := by
  have hnone : ∀ {s'}, Within 0 s s' → Within 8 s s' := fun h => h.mono (Nat.zero_le _)
  unfold queried
  split
  · exact hnone (within_same rfl rfl rfl rfl)
  · next op _ =>
    split_ifs
    · exact hnone (within_same rfl rfl rfl rfl)
    · cases image with
      | some x => exact hnone ((within_complete s o op _).trans (within_same rfl rfl rfl rfl))
      | none => exact within_addProgressCallback ha o op.url hfresh

/-- A callback that is given a picture stores it. -/
theorem within_downloaded (r : LoadResult) (s : Images) (o : OperationId) :
    Within 1 s (downloaded r s o).1 := by
  have hnone : ∀ {s'}, Within 0 s s' → Within 1 s s' := fun h => h.mono (Nat.zero_le _)
  unfold downloaded
  split
  · exact hnone (within_same rfl rfl rfl rfl)
  · next op _ =>
    split_ifs
    · exact hnone (within_same rfl rfl rfl rfl)
    · cases r with
      | error code =>
        exact hnone ((within_complete s o op none).trans (within_same rfl rfl rfl rfl))
      | image x =>
        have hstore : Within 1 s (s.storeImage op.url x) :=
          within_enqueue (j := .store op.url x) rfl rfl rfl rfl
        exact (hstore.trans (within_complete _ o op _)).trans (within_same rfl rfl rfl rfl)

theorem within_runAll_downloaded (r : LoadResult) (l : List OperationId) (s : Images) :
    Within l.length s (Sequence.runAll (fun _ : Images => false) (downloaded r) s l).1 := by
  induction l generalizing s with
  | nil => exact within_same rfl rfl rfl rfl
  | cons o l ih =>
    rw [List.length_cons, Nat.add_comm]
    exact (within_downloaded r s o).trans (ih _)

theorem within_runJob (s : Images) (j : Job) : Within (j.weight - 1) s (s.runJob j) := by
  have hnone : Within (j.weight - 1) s s := (within_same rfl rfl rfl rfl).mono (Nat.zero_le _)
  cases j with
  | store url x => exact within_same rfl rfl rfl rfl
  | query o =>
    unfold runJob
    simp only
    split
    · exact hnone
    · split_ifs
      · exact hnone
      · refine fun hf => ⟨hf, ?_⟩
        simp only [weight, List.map_append, List.sum_append, List.map_cons, List.map_nil,
          List.sum_cons, List.sum_nil, Job.weight, Block.weight]
        omega

/-! ### What each step spends -/

def Spends (s s' : Images) : Prop := s.Finite → s'.Finite ∧ s'.weight + 1 ≤ s.weight

theorem spends_io {s s' : Images} {j : Job} {js : List Job} (hj : s.ioQueue = j :: js)
    (h : Within (j.weight - 1) { s with ioQueue := js } s') : Spends s s' := fun hf => by
  obtain ⟨hf', hw⟩ := h hf
  have hpos : 0 < j.weight := by cases j <;> simp [Job.weight]
  refine ⟨hf', ?_⟩
  simp only [weight, hj, List.map_cons, List.sum_cons] at hw ⊢
  omega

theorem spends_main {s s' : Images} {b : Block} {bs : List Block} (hb : s.mainQueue = b :: bs)
    (h : Within (b.weight - 1) { s with mainQueue := bs } s') : Spends s s' := fun hf => by
  obtain ⟨hf', hw⟩ := h hf
  have hpos : 0 < b.weight := by cases b <;> simp [Block.weight]
  refine ⟨hf', ?_⟩
  simp only [weight, hb, List.map_cons, List.sum_cons] at hw ⊢
  omega

theorem spends_download {s s' : Images} {d : DownloadId} {dl dl' : DownloaderOperation}
    (hd : s.downloads d = some dl) (bs : List Block)
    (hw : dl'.weight + (bs.map Block.weight).sum + 1 ≤ dl.weight) (hio : s'.ioQueue = s.ioQueue)
    (hmain : s'.mainQueue = s.mainQueue ++ bs) (hadd : s'.adding = s.adding)
    (hd' : s'.downloads = Function.update s.downloads d (some dl')) : Spends s s' := fun hf => by
  have ht := tableWeight_update hf d dl'
  rw [hd, Option.elim_some] at ht
  refine ⟨finite_update hf hd', ?_⟩
  simp only [weight, hio, hmain, hadd, hd', List.map_append, List.sum_append]
  omega

theorem spends_addHandlers {s : Images} {o : OperationId} {d : DownloadId}
    (ha : s.adding = some (o, d)) : Spends s (s.addHandlers o d) := fun hf => by
  refine ⟨finite_update hf rfl, ?_⟩
  cases hd : s.downloads d with
  | none =>
    have hsame : (s.addHandlers o d).downloads = s.downloads := by
      simp only [addHandlers, hd, Option.map_none]
      exact Function.update_eq_self_iff.mpr hd.symm
    rw [weight, hsame]
    simp only [weight, addHandlers, ha, Option.elim_some, Option.elim_none]
    omega
  | some dl =>
    have ht := tableWeight_update hf d { dl with callbackBlocks := dl.callbackBlocks ++ [o] }
    have hw : DownloaderOperation.weight { dl with callbackBlocks := dl.callbackBlocks ++ [o] } ≤
        dl.weight + 1 := by
      simp only [DownloaderOperation.weight, List.length_append, List.length_cons, List.length_nil]
      split_ifs <;> omega
    rw [hd, Option.elim_some] at ht
    simp only [weight, addHandlers, ha, hd, Option.map_some, Option.elim_some, Option.elim_none]
    omega

theorem spends_advance {s : Images} {d : DownloadId} {dl : DownloaderOperation} {e : ImageEvent}
    {r : ImageOutcome} (hd : s.downloads d = some dl) (hr : Advances s d dl e r) :
    Spends s r.1 := by
  have hquiet : ∀ {dl' s'}, DownloaderOperation.weight dl' + 1 ≤ dl.weight →
      Images.ioQueue s' = s.ioQueue → s'.mainQueue = s.mainQueue → s'.adding = s.adding →
      s'.downloads = Function.update s.downloads d (some dl') → Spends s s' :=
    fun hw hio hmain hadd hd' =>
      spends_download hd [] hw hio (hmain.trans (List.append_nil _).symm) hadd hd'
  cases hr with
  | start hst => exact hquiet (DownloaderOperation.weight_start hst) rfl rfl rfl rfl
  | didComplete res hst =>
    exact hquiet (DownloaderOperation.weight_didComplete hst res) rfl rfl rfl rfl
  | report res hst =>
    refine spends_download hd [.downloaded dl.callbackBlocks res] ?_ rfl rfl rfl rfl
    rw [DownloaderOperation.weight_eq hst]
    simp +arith [DownloaderOperation.weight, Stage.weight, Stage.collects, Block.weight]
  | done hst | completionBlock hst =>
    refine hquiet ?_ rfl rfl rfl rfl
    rw [DownloaderOperation.weight_eq hst]
    exact le_rfl

end Images

/-- The steps that are left to the queues, the downloads and the session. -/
def ImageEvent.settles : ImageEvent → Bool
  | .main _ | .addHandlers | .io | .start _ | .didComplete _ _ | .report _ | .done _
  | .completionBlock _ => true
  | _ => false

def ImageEvent.loads : ImageEvent → Bool
  | .setImageWithURL _ _ _ => true
  | _ => false

namespace Images

theorem spends_step {s : Images} {e : ImageEvent} {r : ImageOutcome} (hr : s.step e = some r)
    (he : e.settles = true) : Spends s r.1 := by
  cases step_does hr with
  | @queried fresh o image bs ha hb hf =>
    exact spends_main hb (within_queried (s := { s with mainQueue := bs }) ha o image hf)
  | @downloaded _ l res bs hb =>
    refine spends_main hb ?_
    rw [Block.weight, Nat.add_sub_cancel_left]
    exact within_runAll_downloaded res l _
  | addHandlers ha => exact spends_addHandlers ha
  | io hj => exact spends_io hj (within_runJob _ _)
  | advance hd hadv => exact spends_advance hd hadv
  | _ => cases he

/-- Only a load brings something to do. -/
theorem within_step {s : Images} {e : ImageEvent} {r : ImageOutcome} (hr : s.step e = some r)
    (he : e.settles = false) : Within (if e.loads then 10 else 0) s r.1 := by
  cases step_does hr with
  | @setImageWithURL v url o w => exact within_setImageWithURL s v w url o
  | setImage | release | evict | expire => exact within_same rfl rfl rfl rfl
  | advance _ hadv => cases hadv <;> cases he
  | _ => cases he

/-- A step that is left to the system leaves less to do. -/
theorem weight_step {s : Images} (hf : s.Finite) {e : ImageEvent} {r : ImageOutcome}
    (hr : s.step e = some r) : r.1.Finite ∧
      r.1.weight + (if e.settles then 1 else 0) ≤ s.weight + if e.loads then 10 else 0 := by
  cases he : e.settles with
  | true =>
    obtain ⟨hf', hw⟩ := spends_step hr he hf
    exact ⟨hf', hw.trans (Nat.le_add_right _ _)⟩
  | false => exact within_step hr he hf

def AtRest (s : Images) : Prop :=
  s.ioQueue = [] ∧ s.mainQueue = [] ∧ s.adding = none ∧
    ∀ d dl, s.downloads d = some dl → dl.stage = .finished true

theorem AtRest.not_underWay {s : Images} (hr : s.AtRest) (o : OperationId) : ¬ s.UnderWay o := by
  obtain ⟨hio, hmain, hadd, hd⟩ := hr
  rintro (hearly | ⟨d, dl, hdl, -, hc⟩ | ⟨l, r, hm, -⟩)
  · simp [early, hio, hmain, hadd] at hearly
  · simp [hd d dl hdl, Stage.collects] at hc
  · simp [hmain] at hm

/-- A download that has not finished can go on. -/
theorem exists_advance {s : Images} {d : DownloadId} {dl : DownloaderOperation}
    (hd : s.downloads d = some dl) (hs : dl.stage ≠ .finished true) :
    ∃ e r, e.settles = true ∧ s.step e = some r := by
  cases hst : dl.stage with
  | waiting => exact ⟨.start d, _, rfl, by simp [step, hd, advance, hst]; rfl⟩
  | executing => exact ⟨.didComplete d (.error 0), _, rfl, by simp [step, hd, advance, hst]; rfl⟩
  | answered r => exact ⟨.report d, _, rfl, by simp [step, hd, advance, hst]; rfl⟩
  | reported => exact ⟨.done d, _, rfl, by simp [step, hd, advance, hst]; rfl⟩
  | finished completionBlock =>
    cases completionBlock with
    | false => exact ⟨.completionBlock d, _, rfl, by simp [step, hd, advance, hst]; rfl⟩
    | true => exact absurd hst hs

/-- Nothing that is left to do is stuck. -/
theorem exists_settling {s : Images} (hf : s.Finite) (hr : ¬ s.AtRest) :
    ∃ e r, e.settles = true ∧ s.step e = some r := by
  cases hadd : s.adding with
  | some x => exact ⟨.addHandlers, _, rfl, by simp [step, hadd]; rfl⟩
  | none =>
    cases hio : s.ioQueue with
    | cons j js => exact ⟨.io, _, rfl, by simp [step, hio]; rfl⟩
    | nil =>
      cases hmain : s.mainQueue with
      | cons b bs =>
        obtain ⟨fresh, hfresh⟩ := hf.exists_notMem
        have hnone : s.downloads fresh = none := by simpa using hfresh
        exact ⟨.main fresh, _, rfl, by simp [step, onMain, hadd, hmain, hnone]; rfl⟩
      | nil =>
        by_contra hstuck
        refine hr ⟨hio, hmain, hadd, fun d dl hd => ?_⟩
        by_contra hs
        exact hstuck (exists_advance hd hs)

/-! ### Whole runs -/

theorem finite_of_run {s₀ s : Images} {h : ImageHistory} (hl : Launch s₀)
    (hr : machine.Run s₀ h s) : s.Finite := by
  induction hr with
  | nil => simp [Finite, hl.downloads]
  | cons _ hf ih => exact (weight_step ih hf).1

theorem weight_launch {s : Images} (hl : Launch s) : s.weight = 0 := by
  simp [weight, tableWeight, hl.ioQueue, hl.mainQueue, hl.adding, hl.downloads]

theorem weight_run {s₀ s : Images} {h : ImageHistory} (hl : Launch s₀) (hr : machine.Run s₀ h s) :
    s.weight + h.countP (·.event.settles) ≤ s₀.weight + 10 * h.countP (·.event.loads) :=
  hr.weigh ImageEvent.settles ImageEvent.loads fun _ _ hr hf =>
    (weight_step (finite_of_run hl hr) hf).2

/-- The queues, the downloads and the session take at most ten steps for each load. Where some
are left to do one of them can be taken, and left alone the pictures come to rest. By then every
load has been cancelled, was told, once, or came to its download too late. -/
theorem loads_come_to_rest {s₀ s : Images} {h : ImageHistory} (hl : Launch s₀)
    (hr : machine.Run s₀ h s) :
    h.countP (·.event.settles) ≤ 10 * h.countP (·.event.loads) ∧
      (¬ s.AtRest → ∃ e r, e.settles ∧ s.step e = some r) ∧
      (∃ h' s', machine.Run s h' s' ∧ (∀ m ∈ h', m.event.settles) ∧ s'.AtRest) ∧
      (s.AtRest → ∀ o op, s.operations o = some op →
        op.cancelled = true ∨ completions h o = 1 ∨ Missed h o) := by
  refine ⟨?_, exists_settling (finite_of_run hl hr), ?_, fun hrest o op hop => ?_⟩
  · have hw := weight_run hl hr
    rw [weight_launch hl] at hw
    omega
  · have hlighter : ∀ m, machine.Fires m → m.before.Finite → m.event.settles →
        m.after.Finite ∧ m.after.weight < m.before.weight :=
      fun m hf hfin he => spends_step hf he hfin
    exact Machine.exists_run_to_rest hlighter (fun s hf hr => exists_settling hf hr)
      (finite_of_run hl hr)
  · have ha := accounts_of_run hl hr
    have htold := (ha.told o).trans (told_of_some hop)
    by_cases hrun : o ∈ s.runningOperations
    · exact .inr (.inr (not_not.mp fun hm =>
        hrest.not_underWay o ((ha.running o hrun).mpr hm)))
    · cases hc : op.cancelled
      · exact .inr (.inl (by simpa [hrun, hc] using htold))
      · exact .inl rfl

/-- Two loads of one URL, the first of them replaced. -/
def replacedLoad : List ImageEvent :=
  [.setImageWithURL 0 (some "a") 0, .setImageWithURL 1 (some "a") 1, .io, .io, .main 0,
    .addHandlers, .setImageWithURL 0 (some "b") 2, .main 1]

theorem replaced_load_comes_to_rest :
    let r := (machine.exec [] (launch fun _ => none) replacedLoad).get (by decide)
    r.2.operations 0 = some ⟨0, "a", true, true⟩ ∧
      ∃ h' s', machine.Run r.2 h' s' ∧ (∀ m ∈ h', m.event.settles) ∧ s'.AtRest := by
  intro r
  exact ⟨by decide, (loads_come_to_rest (launch_launch fun _ => none)
    (Machine.exec_run (by decide))).2.2.1⟩

end Images

end Mioto
