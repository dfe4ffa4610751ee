import Mioto.ImageLoading

/-! What an image view shows. A load that is not cancelled is the current one of its view, so a
picture that arrives belongs to the URL the view was last given, in whatever order the queues
and the downloads run. -/

namespace Mioto

namespace Images

def urlOf (s : Images) (o : OperationId) : Option String := (s.operations o).map (·.url)

/-- No load of the view is running. -/
def Idle (s : Images) (v : ViewId) : Prop :=
  ∀ o ∈ s.runningOperations, ∀ op, s.operations o = some op → op.view ≠ v

/-- `Good url x` may be read as "`x` is a picture of `url`", and `Given v x` as "`x` was put
into view `v` by hand". -/
structure Sound (Good : String → UIImage → Prop) (Given : ViewId → UIImage → Prop)
    (s : Images) : Prop where
  shown : ∀ v w, s.views v = some w →
    ∀ x ∈ w.image, Given v x ∨ ∃ u, w.imageURL = some u ∧ Good u x
  current : ∀ o ∈ s.runningOperations, ∃ op, s.operations o = some op ∧ op.cancelled = false ∧
    ∀ w, s.views op.view = some w → w.loadOperation = some o ∧ w.imageURL = some op.url
  memCache : ∀ u x, s.memCache u = some x → Good u x
  disk : ∀ u x, s.disk u = some x → Good u x
  stored : ∀ u x, .store u x ∈ s.ioQueue → Good u x
  queried : ∀ o x, .queried o (some x) ∈ s.mainQueue → ∃ u, s.urlOf o = some u ∧ Good u x
  downloaded : ∀ l x, .downloaded l (.image x) ∈ s.mainQueue →
    ∀ o ∈ l, ∃ u, s.urlOf o = some u ∧ Good u x
  answered : ∀ d dl x, s.downloads d = some dl → dl.stage = .answered (.image x) → Good dl.url x
  callbacks : ∀ d dl, s.downloads d = some dl → ∀ o ∈ dl.callbackBlocks, s.urlOf o = some dl.url
  adding : ∀ o d, s.adding = some (o, d) →
    ∃ dl, s.downloads d = some dl ∧ s.urlOf o = some dl.url
  registered : ∀ u d, s.URLOperations u = some d → ∃ dl, s.downloads d = some dl ∧ dl.url = u

variable {Good : String → UIImage → Prop} {Given : ViewId → UIImage → Prop} {s : Images}

theorem Sound.mono {Good' : String → UIImage → Prop} {Given' : ViewId → UIImage → Prop}
    (h : Sound Good Given s) (hg : ∀ u x, Good u x → Good' u x)
    (hv : ∀ v x, Given v x → Given' v x) : Sound Good' Given' s where
  shown v w hw x hx := (h.shown v w hw x hx).imp (hv v x) fun ⟨u, hu, hux⟩ => ⟨u, hu, hg u x hux⟩
  current := h.current
  memCache u x hu := hg u x (h.memCache u x hu)
  disk u x hu := hg u x (h.disk u x hu)
  stored u x hu := hg u x (h.stored u x hu)
  queried o x ho := (h.queried o x ho).imp fun u hu => ⟨hu.1, hg u x hu.2⟩
  downloaded l x hl o ho := (h.downloaded l x hl o ho).imp fun u hu => ⟨hu.1, hg u x hu.2⟩
  answered d dl x hd hs := hg _ x (h.answered d dl x hd hs)
  callbacks := h.callbacks
  adding := h.adding
  registered := h.registered

theorem sound_launch {s : Images} (hl : Launch s) (hd : ∀ u x, s.disk u = some x → Good u x) :
    Sound Good Given s where
  shown v w hw x hx := by
    rw [hl.views v] at hw
    obtain rfl := Option.some.inj hw
    simp at hx
  current o ho := by simp [hl.runningOperations] at ho
  memCache u x hu := by simp [hl.memCache u] at hu
  disk := hd
  stored u x hu := by simp [hl.ioQueue] at hu
  queried o x ho := by simp [hl.mainQueue] at ho
  downloaded l x ho := by simp [hl.mainQueue] at ho
  answered d dl x hd := by simp [hl.downloads d] at hd
  callbacks d dl hd := by simp [hl.downloads d] at hd
  adding o d ho := by simp [hl.adding] at ho
  registered u d hu := by simp [hl.URLOperations u] at hu

/-! ### One lemma for each change -/

theorem Sound.removeRunning (h : Sound Good Given s) (o : OperationId) :
    Sound Good Given (s.removeRunning o) :=
  { h with current := fun o' ho => h.current o' (List.mem_of_mem_filter ho) }

theorem Sound.setView (h : Sound Good Given s) {v : ViewId} {w : Option ImageView}
    (hs : ∀ w' ∈ w, ∀ x ∈ w'.image, Given v x ∨ ∃ u, w'.imageURL = some u ∧ Good u x)
    (hc : ∀ w' ∈ w, s.Idle v ∨ ∃ w₀, s.views v = some w₀ ∧
      w'.loadOperation = w₀.loadOperation ∧ w'.imageURL = w₀.imageURL) :
    Sound Good Given (s.setView v w) := by
  refine { h with shown := fun v' w' hw' => ?_, current := fun o ho => ?_ }
  · by_cases hv : v' = v
    · subst hv
      exact hs w' (by simpa [Images.setView] using hw')
    · exact h.shown v' w' (by simpa [Images.setView, hv] using hw')
  · obtain ⟨op, hop, hcan, hcur⟩ := h.current o ho
    refine ⟨op, hop, hcan, fun w' hw' => ?_⟩
    by_cases hv : op.view = v
    · have hmem : w' ∈ w := by simpa [Images.setView, hv] using hw'
      rcases hc w' hmem with hidle | ⟨w₀, hw₀, hlo, hurl⟩
      · exact absurd hv (hidle o ho op hop)
      · exact hlo ▸ hurl ▸ hcur w₀ (hv ▸ hw₀)
    · exact hcur w' (by simpa [Images.setView, hv] using hw')

theorem Sound.complete (h : Sound Good Given s) {op : CombinedOperation} {image : Option UIImage}
    (hx : ∀ x ∈ image, Good op.url x)
    (hv : ∀ w, s.views op.view = some w → w.imageURL = some op.url) (o : OperationId) :
    Sound Good Given (s.complete o op image).1 := by
  unfold Images.complete
  split_ifs
  · exact h
  · cases image with
    | none => exact h
    | some x =>
      cases hw : s.views op.view with
      | none => exact h
      | some w =>
        refine h.setView (v := op.view) (w := some { w with image := some x }) ?_ ?_
        · rintro _ ⟨⟩ _ ⟨⟩
          exact .inr ⟨op.url, hv w hw, hx x rfl⟩
        · rintro _ ⟨⟩
          exact .inr ⟨w, hw, rfl, rfl⟩

/-- The operations of `s'` are those of `s`, cancelled or with a token. -/
theorem Sound.of_urlOf (h : Sound Good Given s) {s' : Images}
    (hu : ∀ o u, s.urlOf o = some u → s'.urlOf o = some u)
    (hc : ∀ o ∈ s'.runningOperations, ∃ op, s'.operations o = some op ∧ op.cancelled = false ∧
      ∀ w, s.views op.view = some w → w.loadOperation = some o ∧ w.imageURL = some op.url)
    (he : s' = { s with operations := s'.operations, runningOperations := s'.runningOperations }) :
    Sound Good Given s' := by
  rw [he]
  exact
    { h with
      current := hc
      queried := fun o x ho => (h.queried o x ho).imp fun u hux => ⟨hu o u hux.1, hux.2⟩
      downloaded := fun l x hl o ho =>
        (h.downloaded l x hl o ho).imp fun u hux => ⟨hu o u hux.1, hux.2⟩
      callbacks := fun d dl hd o ho => hu o _ (h.callbacks d dl hd o ho)
      adding := fun o d ho => (h.adding o d ho).imp fun dl hdl => ⟨hdl.1, hu o _ hdl.2⟩ }

theorem Sound.setOperation (h : Sound Good Given s) {o : OperationId}
    (ho : s.operations o = none) (op : CombinedOperation) :
    Sound Good Given (s.setOperation o op) := by
  refine h.of_urlOf (fun o' u hu => ?_) (fun o' ho' => ?_) rfl
  · have hne : o' ≠ o := by
      rintro rfl
      simp [urlOf, ho] at hu
    simpa [urlOf, Images.setOperation, hne] using hu
  · obtain ⟨op', hop, hcur⟩ := h.current o' ho'
    have hne : o' ≠ o := by
      rintro rfl
      simp [ho] at hop
    exact ⟨op', by simpa [Images.setOperation, hne] using hop, hcur⟩

theorem Sound.setDownload (h : Sound Good Given s) {d : DownloadId} {dl dl' : DownloaderOperation}
    (hd : s.downloads d = some dl) (hu : dl'.url = dl.url)
    (hc : ∀ o ∈ dl'.callbackBlocks, s.urlOf o = some dl.url)
    (ha : ∀ x, dl'.stage = .answered (.image x) → Good dl.url x) :
    Sound Good Given (s.setDownload d dl') := by
  refine { h with answered := ?_, callbacks := ?_, adding := ?_, registered := ?_ }
  · intro d' dl'' x hd' hx
    by_cases he : d' = d
    · obtain rfl : dl' = dl'' := by simpa [Images.setDownload, he] using hd'
      exact hu ▸ ha x hx
    · exact h.answered d' dl'' x (by simpa [Images.setDownload, he] using hd') hx
  · intro d' dl'' hd' o ho
    by_cases he : d' = d
    · obtain rfl : dl' = dl'' := by simpa [Images.setDownload, he] using hd'
      exact hu ▸ hc o ho
    · exact h.callbacks d' dl'' (by simpa [Images.setDownload, he] using hd') o ho
  · intro o d' ho
    obtain ⟨dl₀, hd₀, hu₀⟩ := h.adding o d' ho
    by_cases he : d' = d
    · obtain rfl : dl = dl₀ := by simpa [he, hd] using hd₀
      exact ⟨dl', by simp [Images.setDownload, he], hu ▸ hu₀⟩
    · exact ⟨dl₀, by simpa [Images.setDownload, he] using hd₀, hu₀⟩
  · intro u d' hu'
    obtain ⟨dl₀, hd₀, hu₀⟩ := h.registered u d' hu'
    by_cases he : d' = d
    · obtain rfl : dl = dl₀ := by simpa [he, hd] using hd₀
      exact ⟨dl', by simp [Images.setDownload, he], hu.trans hu₀⟩
    · exact ⟨dl₀, by simpa [Images.setDownload, he] using hd₀, hu₀⟩

theorem Sound.unregister (h : Sound Good Given s) (url : String) :
    Sound Good Given { s with URLOperations := Function.update s.URLOperations url none } := by
  refine { h with registered := fun u d hu => ?_ }
  by_cases he : u = url
  · simp [he] at hu
  · exact h.registered u d (by simpa [he] using hu)

theorem Sound.cancelDownload (h : Sound Good Given s) (url : String) (o : OperationId) :
    Sound Good Given (s.cancelDownload url o) := by
  unfold Images.cancelDownload
  cases hu : s.URLOperations url with
  | none => exact h
  | some d =>
    cases hd : s.downloads d with
    | none => simpa [hd] using h
    | some dl =>
      have hs : Sound Good Given (s.setDownload d (dl.cancel o).1) :=
        h.setDownload hd (by simp) (fun o' ho => h.callbacks d dl hd o' (by
          rw [dl.callbackBlocks_cancel] at ho
          exact List.mem_of_mem_filter ho))
          fun x hx => h.answered d dl x hd (DownloaderOperation.stage_cancel hx)
      simp only [hd]
      split_ifs
      · exact hs.unregister url
      · exact hs

theorem removeRunning_cancelDownload (s : Images) (url : String) (o o' : OperationId) :
    (s.cancelDownload url o).removeRunning o' = (s.removeRunning o').cancelDownload url o := by
  simp only [Images.cancelDownload, Images.removeRunning]
  split
  · rfl
  · split <;> rfl

theorem Sound.cancelOperation (h : Sound Good Given s) {o : OperationId} {op : CombinedOperation}
    (ho : s.operations o = some op) : Sound Good Given (s.cancelOperation o op) := by
  have hs : Sound Good Given
      ((s.setOperation o { op with cancelled := true }).removeRunning o) := by
    refine h.of_urlOf (fun o' u hu => ?_) (fun o' ho' => ?_) rfl
    · by_cases he : o' = o
      · subst he
        simpa [urlOf, Images.setOperation, Images.removeRunning, ho] using hu
      · simpa [urlOf, Images.setOperation, Images.removeRunning, he] using hu
    · obtain ⟨hmem, hne⟩ := List.mem_filter.mp ho'
      obtain ⟨op', hop, hcur⟩ := h.current o' hmem
      exact ⟨op', by simpa [Images.setOperation, Images.removeRunning, bne_iff_ne.mp hne] using hop,
        hcur⟩
  unfold Images.cancelOperation
  split_ifs
  · rw [removeRunning_cancelDownload]
    exact hs.cancelDownload op.url o
  · exact hs

theorem cancelDownload_frame (s : Images) (url : String) (o : OperationId) :
    s.cancelDownload url o = { s with
      URLOperations := (s.cancelDownload url o).URLOperations
      downloads := (s.cancelDownload url o).downloads } := by
  unfold Images.cancelDownload
  split
  · rfl
  · split <;> rfl

theorem cancelOperation_frame (s : Images) (o : OperationId) (op : CombinedOperation) :
    s.cancelOperation o op = { s with
      operations := Function.update s.operations o (some { op with cancelled := true })
      runningOperations := s.runningOperations.filter (· != o)
      URLOperations := (s.cancelOperation o op).URLOperations
      downloads := (s.cancelOperation o op).downloads } := by
  simp only [Images.cancelOperation]
  split_ifs
  · rw [cancelDownload_frame]
    rfl
  · rfl

@[simp] theorem cancelOperation_runningOperations (s : Images) (o : OperationId)
    (op : CombinedOperation) :
    (s.cancelOperation o op).runningOperations = s.runningOperations.filter (· != o) := by
  rw [cancelOperation_frame]

@[simp] theorem cancelOperation_operations (s : Images) (o : OperationId)
    (op : CombinedOperation) : (s.cancelOperation o op).operations =
      Function.update s.operations o (some { op with cancelled := true }) := by
  rw [cancelOperation_frame]

theorem cancelImageLoad_operations (s : Images) (w : ImageView) (o : OperationId) :
    (s.cancelImageLoad w).operations o = none ↔ s.operations o = none := by
  unfold Images.cancelImageLoad
  split
  · rfl
  · next o' _ =>
    split
    · rfl
    · next op hop =>
      by_cases he : o = o'
      · subst he
        simp [hop]
      · simp [he]

/-- A running load of view `v` is the one in the dictionary, so cancelling that one leaves
none. -/
theorem Sound.cancelImageLoad (h : Sound Good Given s) {v : ViewId} {w : ImageView}
    (hw : s.views v = some w) :
    Sound Good Given (s.cancelImageLoad w) ∧ (s.cancelImageLoad w).Idle v := by
  have hcur : ∀ o ∈ s.runningOperations, ∀ op, s.operations o = some op → op.view = v →
      w.loadOperation = some o := by
    intro o ho op hop hv
    obtain ⟨op', hop', -, hc⟩ := h.current o ho
    obtain rfl := Option.some.inj (hop.symm.trans hop')
    exact (hc w (hv ▸ hw)).1
  unfold Images.cancelImageLoad
  cases hf : w.loadOperation.filter (· ∈ s.runningOperations) with
  | none =>
    refine ⟨h, fun o ho op hop hv => ?_⟩
    have hlo := hcur o ho op hop hv
    simp [hlo, ho] at hf
  | some o =>
    obtain ⟨hlo, hmem⟩ := Option.filter_eq_some_iff.mp hf
    obtain ⟨op, hop, -⟩ := h.current o (of_decide_eq_true hmem)
    simp only [hop]
    refine ⟨h.cancelOperation hop, fun o' ho' op' hop' hv => ?_⟩
    rw [cancelOperation_runningOperations] at ho'
    obtain ⟨hmem', hne⟩ := List.mem_filter.mp ho'
    have hne' : o' ≠ o := bne_iff_ne.mp hne
    have hlo' := hcur o' hmem' op' (by simpa [hne'] using hop') hv
    exact hne' (Option.some.inj (hlo'.symm.trans hlo))

theorem Sound.loadImage (h : Sound Good Given s) {v : ViewId} {url : String} {o : OperationId}
    (ho : s.operations o = none)
    (hv : ∀ w, s.views v = some w → w.loadOperation = some o ∧ w.imageURL = some url) :
    Sound Good Given (s.loadImage v url o).1 := by
  have hs := h.setOperation ho ⟨v, url, false, false⟩
  have hcomplete : ∀ image : Option UIImage, (∀ x ∈ image, Good url x) → Sound Good Given
      ((s.setOperation o ⟨v, url, false, false⟩).complete o ⟨v, url, false, false⟩ image).1 :=
    fun image hx => by
      refine hs.complete ?_ ?_ o
      · exact hx
      · exact fun w hw => (hv w hw).2
  unfold Images.loadImage
  simp only
  split_ifs
  · exact hcomplete none (by simp)
  · split
    · next x hx =>
      refine hcomplete (some x) fun x' hx' => ?_
      obtain rfl := Option.mem_some_iff.mp hx'
      exact h.memCache url x hx
    · refine { hs with current := fun o' ho' => ?_, stored := fun u x hu => ?_ }
      · rcases List.mem_append.mp ho' with ho' | ho'
        · exact hs.current o' ho'
        · obtain rfl := List.mem_singleton.mp ho'
          exact ⟨⟨v, url, false, false⟩, by simp [Images.setOperation], rfl, hv⟩
      · exact h.stored u x (by simpa using hu)

theorem Sound.setImageWithURL (h : Sound Good Given s) {v : ViewId} {w : ImageView}
    (hw : s.views v = some w) (url : Option String) {o : OperationId}
    (ho : s.operations o = none) : Sound Good Given (s.setImageWithURL v w url o).1 := by
  obtain ⟨hs, hi⟩ := h.cancelImageLoad hw
  have hblank : ∀ u lo, Sound Good Given ((s.cancelImageLoad w).setView v (some ⟨none, u, lo⟩)) :=
    fun u lo => hs.setView (by rintro _ ⟨⟩ _ ⟨⟩) (by rintro _ ⟨⟩; exact .inl hi)
  unfold Images.setImageWithURL
  cases url with
  | none => exact hblank none none
  | some u =>
    have hfresh := (cancelImageLoad_operations s w o).mpr ho
    refine (hblank u (some o)).loadImage hfresh fun w' hw' => ?_
    obtain rfl : (⟨none, u, some o⟩ : ImageView) = w' := by
      simpa [Images.setView] using hw'
    exact ⟨rfl, rfl⟩

theorem Sound.addProgressCallback (h : Sound Good Given s) {o : OperationId} {url : String}
    (ho : s.urlOf o = some url) {fresh : DownloadId} (hf : s.downloads fresh = none) :
    Sound Good Given (s.addProgressCallback o url fresh) := by
  unfold Images.addProgressCallback
  split
  · next d hd =>
    obtain ⟨dl, hdl, rfl⟩ := h.registered url d (Option.filter_eq_some_iff.mp hd).1
    refine { h with adding := fun o' d' ha => ?_ }
    obtain ⟨rfl, rfl⟩ := Prod.mk.inj (Option.some.inj ha)
    exact ⟨dl, hdl, ho⟩
  · have hne : ∀ d dl, s.downloads d = some dl → d ≠ fresh := by
      rintro d dl hd rfl
      simp [hf] at hd
    refine { h with answered := ?_, callbacks := ?_, adding := ?_, registered := ?_ }
    · intro d dl x hd hx
      by_cases he : d = fresh
      · obtain rfl : _ = dl := by simpa [he] using hd
        cases hx
      · exact h.answered d dl x (by simpa [he] using hd) hx
    · intro d dl hd o' ho'
      by_cases he : d = fresh
      · obtain rfl : _ = dl := by simpa [he] using hd
        simp at ho'
      · exact h.callbacks d dl (by simpa [he] using hd) o' ho'
    · intro o' d' ha
      obtain ⟨rfl, rfl⟩ := Prod.mk.inj (Option.some.inj ha)
      exact ⟨⟨url, [], false, .waiting⟩, by simp, ho⟩
    · intro u d hu
      by_cases he : u = url
      · obtain rfl : fresh = d := by simpa [he] using hu
        exact ⟨⟨url, [], false, .waiting⟩, by simp, he.symm⟩
      · obtain ⟨dl, hd, hdu⟩ := h.registered u d (by simpa [he] using hu)
        exact ⟨dl, by simpa [hne d dl hd] using hd, hdu⟩

/-- What a load that is not gone may rely on when its block runs. -/
theorem Sound.of_not_gone (h : Sound Good Given s) {o : OperationId} {op : CombinedOperation}
    (hop : s.operations o = some op) (hg : s.isGone o op = false) :
    ∀ w, s.views op.view = some w → w.imageURL = some op.url := by
  have hmem : o ∈ s.runningOperations := by
    by_contra hn
    simp [isGone, hn] at hg
  obtain ⟨op', hop', -, hc⟩ := h.current o hmem
  obtain rfl := Option.some.inj (hop.symm.trans hop')
  exact fun w hw => (hc w hw).2

theorem Sound.queriedBlock (h : Sound Good Given s) {o : OperationId} {image : Option UIImage}
    (hx : ∀ x ∈ image, ∃ u, s.urlOf o = some u ∧ Good u x) {fresh : DownloadId}
    (hf : s.downloads fresh = none) : Sound Good Given (s.queried o image fresh).1 := by
  unfold Images.queried
  cases hop : s.operations o with
  | none => exact h
  | some op =>
    have hu : s.urlOf o = some op.url := by simp [urlOf, hop]
    simp only
    split_ifs with hg
    · exact h.removeRunning o
    · cases image with
      | none => exact h.addProgressCallback hu hf
      | some x =>
        refine (h.complete ?_ (h.of_not_gone hop (by simpa using hg)) o).removeRunning o
        rintro _ ⟨⟩
        obtain ⟨u, hu', hux⟩ := hx x rfl
        exact Option.some.inj (hu'.symm.trans hu) ▸ hux

theorem Sound.storeImage (h : Sound Good Given s) {url : String} {x : UIImage} (hx : Good url x) :
    Sound Good Given (s.storeImage url x) := by
  refine { h with memCache := fun u x' hu => ?_, stored := fun u x' hu => ?_ }
  · by_cases he : u = url
    · subst he
      obtain rfl : x = x' := by simpa [Images.storeImage] using hu
      exact hx
    · exact h.memCache u x' (by simpa [Images.storeImage, he] using hu)
  · rcases List.mem_append.mp hu with hu | hu
    · exact h.stored u x' hu
    · obtain ⟨rfl, rfl⟩ := Job.store.inj (List.mem_singleton.mp hu)
      exact hx

theorem Sound.blockURLs (h : Sound Good Given s) (urls : List String) :
    Sound Good Given { s with failedURLs := urls } := { h with }

theorem Sound.downloadedBlock (h : Sound Good Given s) {r : LoadResult} {o : OperationId}
    (hx : ∀ x, r = .image x → ∃ u, s.urlOf o = some u ∧ Good u x) :
    Sound Good Given (Images.downloaded r s o).1 := by
  unfold Images.downloaded
  cases hop : s.operations o with
  | none => exact h
  | some op =>
    simp only
    split_ifs with hg
    · exact h.removeRunning o
    · have hv := h.of_not_gone hop (by simpa using hg)
      cases r with
      | error code =>
        have hc : Sound Good Given (s.complete o op none).1 := h.complete (by simp) hv o
        exact (hc.blockURLs _).removeRunning o
      | image x =>
        obtain ⟨u, hu, hux⟩ := hx x rfl
        obtain rfl : op.url = u := by simpa [urlOf, hop] using hu
        refine ((h.storeImage hux).complete ?_ hv o).removeRunning o
        rintro _ ⟨⟩
        exact hux

/-- Blocks of the main queue do not change what an operation loads. -/
theorem operations_complete (s : Images) (o : OperationId) (op : CombinedOperation)
    (image : Option UIImage) : (s.complete o op image).1.operations = s.operations := by
  unfold Images.complete
  split_ifs
  · rfl
  · simp only
    split <;> rfl

theorem operations_downloaded (r : LoadResult) (s : Images) (o : OperationId) :
    (Images.downloaded r s o).1.operations = s.operations := by
  unfold Images.downloaded
  split
  · rfl
  · split_ifs
    · rfl
    · cases r with
      | error code => exact operations_complete s _ _ _
      | image x => exact operations_complete (s.storeImage _ x) _ _ _

theorem Sound.downloadedBlocks (h : Sound Good Given s) {r : LoadResult} {l : List OperationId}
    (hl : ∀ o ∈ l, ∀ x, r = .image x → ∃ u, s.urlOf o = some u ∧ Good u x) :
    Sound Good Given (Sequence.runAll (fun _ : Images => false) (Images.downloaded r) s l).1 := by
  induction l generalizing s with
  | nil => exact h
  | cons o l ih =>
    have hu : ∀ o', (Images.downloaded r s o).1.urlOf o' = s.urlOf o' := fun o' => by
      simp only [urlOf, operations_downloaded]
    rw [Sequence.runAll_cons, Sequence.andThen_of_go _ rfl]
    refine ih (h.downloadedBlock (hl o List.mem_cons_self)) fun o' ho' x hx => ?_
    rw [hu]
    exact hl o' (List.mem_cons_of_mem o ho') x hx

theorem Sound.pop (h : Sound Good Given s) {b : Block} {bs : List Block}
    (hb : s.mainQueue = b :: bs) : Sound Good Given { s with mainQueue := bs } :=
  { h with
    queried := fun o x ho => h.queried o x (hb ▸ List.mem_cons_of_mem b ho)
    downloaded := fun l x hl => h.downloaded l x (hb ▸ List.mem_cons_of_mem b hl) }

theorem Sound.addHandlers (h : Sound Good Given s) {o : OperationId} {d : DownloadId}
    (ha : s.adding = some (o, d)) : Sound Good Given (s.addHandlers o d) := by
  obtain ⟨dl, hd, hu⟩ := h.adding o d ha
  obtain ⟨op, hop, hurl⟩ := Option.map_eq_some_iff.mp hu
  have hs : Sound Good Given { s with adding := none } := { h with adding := by simp }
  have hd' : Sound Good Given (Images.setDownload { s with adding := none } d
      { dl with callbackBlocks := dl.callbackBlocks ++ [o] }) := by
    refine hs.setDownload hd rfl (fun o' ho' => ?_) fun x hx => h.answered d dl x hd hx
    rcases List.mem_append.mp ho' with ho' | ho'
    · exact h.callbacks d dl hd o' ho'
    · obtain rfl := List.mem_singleton.mp ho'
      exact hu
  refine hd'.of_urlOf (fun o' u hu' => ?_) (fun o' ho' => ?_) ?_
  · by_cases he : o' = o
    · subst he
      simpa [urlOf, Images.addHandlers, Images.setDownload, hop] using hu'
    · simpa [urlOf, Images.addHandlers, Images.setDownload, he] using hu'
  · obtain ⟨op', hop', hc⟩ := h.current o' ho'
    by_cases he : o' = o
    · subst he
      exact ⟨{ op' with downloadToken := true }, by simp [Images.addHandlers, hop'], hc⟩
    · exact ⟨op', by simpa [Images.addHandlers, he] using hop', hc⟩
  · simp [Images.addHandlers, Images.setDownload, hd]

theorem Sound.runJob (h : Sound Good Given s) {j : Job} {js : List Job} (hj : s.ioQueue = j :: js) :
    Sound Good Given ({ s with ioQueue := js }.runJob j) := by
  have hs : Sound Good Given { s with ioQueue := js } :=
    { h with stored := fun u x hu => h.stored u x (hj ▸ List.mem_cons_of_mem j hu) }
  cases j with
  | query o =>
    unfold Images.runJob
    cases hop : s.operations o with
    | none => simpa [hop] using hs
    | some op =>
      simp only [hop]
      split_ifs
      · exact hs
      · refine { hs with
          memCache := fun u x hu => ?_
          queried := fun o' x ho => ?_
          downloaded := ?_ }
        · by_cases he : u = op.url
          · subst he
            cases hd : s.disk op.url with
            | none => exact h.memCache op.url x (by simpa [hd] using hu)
            | some x' =>
              obtain rfl : x' = x := by simpa [hd] using hu
              exact h.disk op.url x' hd
          · refine h.memCache u x ?_
            cases hd : s.disk op.url <;> simpa [hd, he] using hu
        · rcases List.mem_append.mp ho with ho | ho
          · exact h.queried o' x ho
          · obtain ⟨rfl, hx⟩ := Block.queried.inj (List.mem_singleton.mp ho)
            exact ⟨op.url, by simp [urlOf, hop], h.disk op.url x hx.symm⟩
        · intro l x hl
          exact h.downloaded l x (by simpa using hl)
  | store url x =>
    refine { hs with disk := fun u x' hu => ?_ }
    simp only [Images.runJob] at hu
    by_cases he : u = url
    · subst he
      obtain rfl : x = x' := by simpa using hu
      exact h.stored u x (hj ▸ List.mem_cons_self)
    · exact h.disk u x' (by simpa [he] using hu)

theorem Sound.advance (h : Sound Good Given s) {d : DownloadId} {dl : DownloaderOperation}
    (hd : s.downloads d = some dl) {e : ImageEvent} {r : ImageOutcome}
    (hr : Advances s d dl e r)
    (hg : ∀ d' x, e = .didComplete d' (.data (some x)) → Good dl.url x) : Sound Good Given r.1 := by
  have hcb := h.callbacks d dl hd
  cases hr with
  | start =>
    refine h.setDownload hd (by simp) (fun o ho => hcb o ?_) fun x hx => ?_
    · rw [dl.callbackBlocks_start] at ho
      split_ifs at ho
      · simp at ho
      · exact ho
    · unfold DownloaderOperation.start at hx
      split_ifs at hx
  | didComplete res =>
    refine h.setDownload hd (by simp) (by simpa using hcb) fun x hx => ?_
    exact hg _ x (by rw [DownloaderOperation.stage_didComplete hx])
  | report res hst =>
    have hs : Sound Good Given (s.setDownload d { dl with stage := .reported }) :=
      h.setDownload hd rfl hcb (by simp)
    refine { hs with queried := fun o x ho => ?_, downloaded := fun l x hl o ho => ?_ }
    · exact h.queried o x (by simpa using ho)
    · rcases List.mem_append.mp hl with hl | hl
      · exact h.downloaded l x hl o ho
      · obtain ⟨rfl, hres⟩ := Block.downloaded.inj (List.mem_singleton.mp hl)
        exact ⟨dl.url, hcb o ho, h.answered d dl x hd (hres ▸ hst)⟩
  | done =>
    exact h.setDownload hd rfl (by simp [DownloaderOperation.done])
      (by simp [DownloaderOperation.done])
  | completionBlock =>
    have hs : Sound Good Given (s.setDownload d { dl with stage := .finished true }) :=
      h.setDownload hd rfl hcb (by simp)
    exact hs.unregister dl.url

/-- A picture that the session gives is of the URL it was asked for. -/
theorem Sound.step (h : Sound Good Given s) {e : ImageEvent} {r : ImageOutcome}
    (hr : s.step e = some r)
    (hg : ∀ d dl x, e = .didComplete d (.data (some x)) → s.downloads d = some dl →
      Good dl.url x)
    (hv : ∀ v x, e = .setImage v x → Given v x) : Sound Good Given r.1 := by
  cases step_does hr with
  | setImageWithURL ha hw ho => exact h.setImageWithURL hw _ ho
  | setImage hw =>
    refine h.setView ?_ ?_
    · rintro _ ⟨⟩ _ ⟨⟩
      exact .inl (hv _ _ rfl)
    · rintro _ ⟨⟩
      exact .inr ⟨_, hw, rfl, rfl⟩
  | release => exact h.setView (by rintro _ ⟨⟩) (by rintro _ ⟨⟩)
  | @queried _ o _ _ _ hb hf =>
    refine (h.pop hb).queriedBlock (fun x hx => ?_) hf
    obtain rfl := Option.mem_def.mp hx
    exact h.queried o x (hb ▸ List.mem_cons_self)
  | @downloaded _ l _ _ hb =>
    refine (h.pop hb).downloadedBlocks fun o ho x hx => ?_
    subst hx
    exact h.downloaded l x (hb ▸ List.mem_cons_self) o ho
  | addHandlers ha => exact h.addHandlers ha
  | io hj => exact h.runJob hj
  | @evict url =>
    refine { h with memCache := fun u x hu => ?_ }
    by_cases he : u = url
    · simp [he] at hu
    · exact h.memCache u x (by simpa [he] using hu)
  | @expire url =>
    refine { h with disk := fun u x hu => ?_ }
    by_cases he : u = url
    · simp [he] at hu
    · exact h.disk u x (by simpa [he] using hu)
  | @advance d dl _ _ hd hadv =>
    refine h.advance hd hadv fun d' x he => ?_
    subst he
    cases hadv with
    | didComplete => exact hg d dl x rfl hd

/-! ### Runs -/

/-- `x` was in the disk cache for `url` when the process started, or the session has given it
for `url`. -/
def Loaded (s₀ : Images) (h : ImageHistory) (url : String) (x : UIImage) : Prop :=
  s₀.disk url = some x ∨ ∃ m ∈ h, ∃ d dl, m.event = .didComplete d (.data (some x)) ∧
    m.before.downloads d = some dl ∧ dl.url = url

def Chosen (h : ImageHistory) (v : ViewId) (x : UIImage) : Prop :=
  ∃ m ∈ h, m.event = .setImage v x

theorem sound_of_run {s₀ s : Images} {h : ImageHistory} (hl : Launch s₀)
    (hr : machine.Run s₀ h s) : Sound (Loaded s₀ h) (Chosen h) s := by
  induction hr with
  | nil => exact sound_launch hl fun _ _ hd => .inl hd
  | @cons h m _ hf ih =>
    have hs : Sound (Loaded s₀ (m :: h)) (Chosen (m :: h)) m.before :=
      ih.mono
        (fun u x hu => hu.imp_right fun ⟨m', hm', hux⟩ => ⟨m', List.mem_cons_of_mem m hm', hux⟩)
        fun v x ⟨m', hm', hvx⟩ => ⟨m', List.mem_cons_of_mem m hm', hvx⟩
    refine hs.step (r := (m.after, m.out)) hf (fun d dl x he hd => ?_) fun v x he => ?_
    · exact .inr ⟨m, List.mem_cons_self, d, dl, he, hd, rfl⟩
    · exact ⟨m, List.mem_cons_self, he⟩

/-! ### The URL that a view was given last -/

def KeepsURLs (s s' : Images) : Prop :=
  ∀ v w', s'.views v = some w' → ∃ w, s.views v = some w ∧ w'.imageURL = w.imageURL

theorem keepsURLs_closed :
    Sequence.Closed fun (s : Images) (r : ImageOutcome) => KeepsURLs s r.1 where
  refl _ _ w' hw' := ⟨w', hw', rfl⟩
  trans h h' v w'' hw'' := by
    obtain ⟨w', hw', hu'⟩ := h' v w'' hw''
    obtain ⟨w, hw, hu⟩ := h v w' hw'
    exact ⟨w, hw, hu'.trans hu⟩

theorem KeepsURLs.of_views {s s' : Images} (h : s'.views = s.views) : KeepsURLs s s' :=
  fun _ w' hw' => ⟨w', h ▸ hw', rfl⟩

theorem KeepsURLs.complete {s s' : Images} (h : KeepsURLs s s') (o : OperationId)
    (op : CombinedOperation) (image : Option UIImage) : KeepsURLs s (s'.complete o op image).1 := by
  unfold Images.complete
  split_ifs
  · exact h
  · cases image with
    | none => exact h
    | some x =>
      cases hw : s'.views op.view with
      | none => exact h
      | some w =>
        intro v w' hw'
        by_cases hv : v = op.view
        · obtain rfl : _ = w' := by simpa [hv] using hw'
          exact h v w (hv ▸ hw)
        · exact h v w' (by simpa [hv] using hw')

theorem keepsURLs_loadImage (s : Images) (v : ViewId) (url : String) (o : OperationId) :
    KeepsURLs s (s.loadImage v url o).1 := by
  have hs : KeepsURLs s (s.setOperation o ⟨v, url, false, false⟩) := .of_views rfl
  unfold Images.loadImage
  simp only
  split_ifs
  · exact hs.complete o _ none
  · split
    · exact hs.complete o _ _
    · exact .of_views rfl

theorem keepsURLs_queried (s : Images) (o : OperationId) (image : Option UIImage)
    (fresh : DownloadId) : KeepsURLs s (s.queried o image fresh).1 := by
  unfold Images.queried
  split
  · exact .of_views rfl
  · split_ifs
    · exact .of_views rfl
    · cases image with
      | some x => exact KeepsURLs.complete (.of_views rfl) o _ (some x)
      | none =>
        simp only [Images.addProgressCallback]
        split <;> exact .of_views rfl

theorem keepsURLs_downloaded (r : LoadResult) (s : Images) (o : OperationId) :
    KeepsURLs s (Images.downloaded r s o).1 := by
  unfold Images.downloaded
  cases s.operations o with
  | none => exact .of_views rfl
  | some op =>
    simp only
    split_ifs
    · exact .of_views rfl
    · cases r with
      | error code => exact KeepsURLs.complete (.of_views rfl) o op none
      | image x =>
        have hs : KeepsURLs s (s.storeImage op.url x) := .of_views rfl
        exact hs.complete o op (some x)

theorem cancelImageLoad_views (s : Images) (w : ImageView) :
    (s.cancelImageLoad w).views = s.views := by
  unfold Images.cancelImageLoad
  split
  · rfl
  · split
    · rfl
    · rw [cancelOperation_frame]

/-- The queue of the cache and the threads of the downloads touch neither the views nor the
operations. -/
theorem runJob_frame (s : Images) (j : Job) : (s.runJob j).views = s.views ∧
    (s.runJob j).operations = s.operations ∧
      (s.runJob j).runningOperations = s.runningOperations := by
  cases j with
  | store => exact ⟨rfl, rfl, rfl⟩
  | query o =>
    simp only [Images.runJob]
    split
    · exact ⟨rfl, rfl, rfl⟩
    · split_ifs <;> exact ⟨rfl, rfl, rfl⟩

theorem advance_frame {d : DownloadId} {dl : DownloaderOperation} {e : ImageEvent}
    {r : ImageOutcome} (hr : Advances s d dl e r) : r.1.views = s.views ∧
      r.1.operations = s.operations ∧ r.1.runningOperations = s.runningOperations := by
  cases hr <;> exact ⟨rfl, rfl, rfl⟩

/-- The URL that an event gives to the view, if it gives one. -/
def givenURL (v : ViewId) : ImageEvent → Option (Option String)
  | .setImageWithURL v' url _ => if v' = v then some url else none
  | _ => none

theorem imageURL_step {e : ImageEvent} {r : ImageOutcome} (hr : s.step e = some r) {v : ViewId}
    {w' : ImageView} (hw' : r.1.views v = some w') :
    ∃ w, s.views v = some w ∧ w'.imageURL = (givenURL v e).getD w.imageURL := by
  cases step_does hr with
  | @setImageWithURL v' url o w ha hw =>
    have hset : ∃ lo, ∃ w₁, ((s.cancelImageLoad w).setView v' (some ⟨none, url, lo⟩)).views v =
        some w₁ ∧ w'.imageURL = w₁.imageURL := by
      cases url with
      | none => exact ⟨none, w', hw', rfl⟩
      | some u => exact ⟨some o, keepsURLs_loadImage _ v' u o v w' hw'⟩
    obtain ⟨lo, w₁, hw₁, hu⟩ := hset
    simp only [setView, cancelImageLoad_views] at hw₁
    by_cases hv : v' = v
    · subst hv
      obtain rfl : _ = w₁ := by simpa using hw₁
      exact ⟨w, hw, by simp [hu, givenURL]⟩
    · exact ⟨w₁, by simpa [Ne.symm hv] using hw₁, by simp [hu, givenURL, hv]⟩
  | @setImage v' x w hw =>
    by_cases hv : v = v'
    · subst hv
      obtain rfl : _ = w' := by simpa [setView] using hw'
      exact ⟨w, hw, rfl⟩
    · exact ⟨w', by simpa [setView, hv] using hw', rfl⟩
  | @release v' =>
    by_cases hv : v = v'
    · simp [setView, hv] at hw'
    · exact ⟨w', by simpa [setView, hv] using hw', rfl⟩
  | @queried fresh o image bs =>
    exact keepsURLs_queried { s with mainQueue := bs } o image fresh v w' hw'
  | @downloaded _ l res bs =>
    have hrun : KeepsURLs _ (Sequence.runAll (fun _ : Images => false) (downloaded res)
        { s with mainQueue := bs } l).1 :=
      keepsURLs_closed.runAll (fun s o _ => keepsURLs_downloaded res s o) _
    exact hrun v w' hw'
  | @io j =>
    rw [(runJob_frame _ j).1] at hw'
    exact ⟨w', hw', rfl⟩
  | addHandlers | evict | expire => exact ⟨w', hw', rfl⟩
  | advance _ hadv =>
    refine ⟨w', (advance_frame hadv).1 ▸ hw', ?_⟩
    cases hadv <;> rfl

def lastURL (h : ImageHistory) (v : ViewId) : Option String :=
  (h.findSome? fun m => givenURL v m.event).join

theorem imageURL_of_run {s₀ s : Images} {h : ImageHistory} (hl : Launch s₀)
    (hr : machine.Run s₀ h s) {v : ViewId} {w : ImageView} (hw : s.views v = some w) :
    w.imageURL = lastURL h v := by
  induction hr generalizing w with
  | nil =>
    rw [hl.views v] at hw
    obtain rfl := Option.some.inj hw
    rfl
  | @cons h m _ hf ih =>
    obtain ⟨w₀, hw₀, hu⟩ := imageURL_step (r := (m.after, m.out)) hf hw
    rw [hu, ih hw₀]
    cases hg : givenURL v m.event <;> simp [lastURL, hg]

/-- In every run, whatever an image view shows was put there by hand or is a picture of the URL
that the view was given last. -/
theorem shows_own_picture {s₀ s : Images} {h : ImageHistory} (hl : Launch s₀)
    (hr : machine.Run s₀ h s) {v : ViewId} {w : ImageView} (hw : s.views v = some w) {x : UIImage}
    (hx : w.image = some x) : Chosen h v x ∨ ∃ u, lastURL h v = some u ∧ Loaded s₀ h u x :=
  imageURL_of_run hl hr hw ▸ (sound_of_run hl hr).shown v w hw x hx

/-- The view is given another URL while the picture of the first is on its way. -/
def reusedView : List ImageEvent :=
  [.setImageWithURL 0 (some "a") 0, .io, .main 0, .addHandlers, .start 0,
    .setImageWithURL 0 (some "b") 1, .io, .main 1, .addHandlers, .start 1,
    .didComplete 1 (.data (some "B")), .report 1, .main 2]

theorem reused_view_shows_own :
    let r := (machine.exec [] (launch fun _ => none) reusedView).get (by decide)
    lastURL r.1 0 = some "b" ∧ (Chosen r.1 0 "B" ∨
      ∃ u, lastURL r.1 0 = some u ∧ Loaded (launch fun _ => none) r.1 u "B") := by
  intro r
  exact ⟨by decide, shows_own_picture (w := ⟨some "B", some "b", some 1⟩)
    (launch_launch fun _ => none) (Machine.exec_run (by decide)) (by decide) rfl⟩

/-! ### Views without a load -/

theorem Idle.of_running {s s' : Images} {v : ViewId} (h : s.Idle v)
    (ho : s'.operations = s.operations) (hr : s'.runningOperations ⊆ s.runningOperations) :
    s'.Idle v := fun o hmem op hop => h o (hr hmem) op (ho ▸ hop)

/-- The program does nothing to view `v` while no load of it is running. -/
def LeavesIdle (v : ViewId) (s : Images) (r : ImageOutcome) : Prop :=
  s.Idle v → r.1.Idle v ∧ r.1.views v = s.views v

theorem leavesIdle_closed (v : ViewId) : Sequence.Closed (LeavesIdle v) where
  refl _ h := ⟨h, rfl⟩
  trans h h' hi := by
    obtain ⟨hi', hv⟩ := h hi
    obtain ⟨hi'', hv'⟩ := h' hi'
    exact ⟨hi'', hv'.trans hv⟩

theorem complete_view {op : CombinedOperation} {v : ViewId} (hv : op.view ≠ v) (s : Images)
    (o : OperationId) (image : Option UIImage) :
    (s.complete o op image).1.views v = s.views v ∧
      (s.complete o op image).1.runningOperations = s.runningOperations := by
  unfold Images.complete
  split_ifs
  · exact ⟨rfl, rfl⟩
  · cases image with
    | none => exact ⟨rfl, rfl⟩
    | some x => cases s.views op.view <;> simp [Ne.symm hv]

theorem Idle.complete {v : ViewId} (h : s.Idle v) {op : CombinedOperation} (hv : op.view ≠ v)
    (o : OperationId) (image : Option UIImage) : (s.complete o op image).1.Idle v :=
  h.of_running (operations_complete s o op image)
    fun _ ho => (complete_view hv s o image).2 ▸ ho

theorem Idle.removeRunning {v : ViewId} (h : s.Idle v) (o : OperationId) :
    (s.removeRunning o).Idle v := h.of_running rfl fun _ ho => List.mem_of_mem_filter ho

/-- A load that is not gone is not one of an idle view. -/
theorem Idle.view_ne {v : ViewId} (h : s.Idle v) {o : OperationId} {op : CombinedOperation}
    (hop : s.operations o = some op) (hg : s.isGone o op = false) : op.view ≠ v := by
  obtain ⟨hrun, -⟩ : o ∈ s.runningOperations ∧ op.cancelled = false := by simpa [isGone] using hg
  exact h o hrun op hop

theorem leavesIdle_queried (v : ViewId) (s : Images) (o : OperationId) (image : Option UIImage)
    (fresh : DownloadId) : LeavesIdle v s (s.queried o image fresh) := by
  intro h
  unfold Images.queried
  cases hop : s.operations o with
  | none => exact ⟨h, rfl⟩
  | some op =>
    simp only
    split_ifs with hg
    · exact ⟨h.removeRunning o, rfl⟩
    · have hv := h.view_ne hop (by simpa using hg)
      cases image with
      | some x =>
        exact ⟨(h.complete hv o (some x)).removeRunning o, (complete_view hv s o (some x)).1⟩
      | none =>
        simp only [Images.addProgressCallback]
        split
        · exact ⟨h.of_running rfl (List.Subset.refl _), rfl⟩
        · exact ⟨h.of_running rfl (List.Subset.refl _), rfl⟩

theorem leavesIdle_downloaded (v : ViewId) (r : LoadResult) (s : Images) (o : OperationId) :
    LeavesIdle v s (Images.downloaded r s o) := by
  intro h
  unfold Images.downloaded
  cases hop : s.operations o with
  | none => exact ⟨h, rfl⟩
  | some op =>
    simp only
    split_ifs with hg
    · exact ⟨h.removeRunning o, rfl⟩
    · have hv := h.view_ne hop (by simpa using hg)
      cases r with
      | error code =>
        have hc := h.complete hv o none
        exact ⟨(hc.of_running rfl (List.Subset.refl _)).removeRunning o,
          (complete_view hv s o none).1⟩
      | image x =>
        have hs : (s.storeImage op.url x).Idle v := h.of_running rfl (List.Subset.refl _)
        exact ⟨(hs.complete hv o (some x)).removeRunning o,
          (complete_view hv (s.storeImage op.url x) o (some x)).1⟩

theorem Idle.cancelImageLoad {v : ViewId} (h : s.Idle v) (w : ImageView) :
    (s.cancelImageLoad w).Idle v := by
  unfold Images.cancelImageLoad
  split
  · exact h
  · next o _ =>
    split
    · exact h
    · next op hop =>
      intro o' ho' op' hop'
      rw [cancelOperation_runningOperations] at ho'
      obtain ⟨hmem, hne⟩ := List.mem_filter.mp ho'
      exact h o' hmem op' (by simpa [bne_iff_ne.mp hne] using hop')

theorem leavesIdle_loadImage {v v' : ViewId} (hv : v' ≠ v) (s : Images) (url : String)
    (o : OperationId) : LeavesIdle v s (s.loadImage v' url o) := by
  intro h
  have hs : (s.setOperation o ⟨v', url, false, false⟩).Idle v := by
    intro o' ho' op' hop'
    by_cases he : o' = o
    · obtain rfl : _ = op' := by simpa [Images.setOperation, he] using hop'
      exact hv
    · exact h o' ho' op' (by simpa [Images.setOperation, he] using hop')
  unfold Images.loadImage
  simp only
  split_ifs
  · exact ⟨hs.complete hv o none, (complete_view hv _ o none).1⟩
  · split
    · next x _ => exact ⟨hs.complete hv o (some x), (complete_view hv _ o (some x)).1⟩
    · refine ⟨fun o' ho' op' hop' => ?_, rfl⟩
      rcases List.mem_append.mp ho' with ho' | ho'
      · exact hs o' ho' op' hop'
      · obtain rfl := List.mem_singleton.mp ho'
        obtain rfl : _ = op' := by simpa [Images.setOperation] using hop'
        exact hv

/-- The view that an event names. -/
def viewOf : ImageEvent → Option ViewId
  | .setImageWithURL v _ _ | .setImage v _ | .release v => some v
  | _ => none

theorem leavesIdle_step {e : ImageEvent} {r : ImageOutcome} (hr : s.step e = some r) {v : ViewId}
    (hv : viewOf e ≠ some v) : LeavesIdle v s r := by
  intro h
  have hsame : ∀ {s' : Images}, s'.operations = s.operations →
      s'.runningOperations = s.runningOperations → s'.views v = s.views v →
      s'.Idle v ∧ s'.views v = s.views v :=
    fun ho hrun hview => ⟨h.of_running ho fun _ hm => hrun ▸ hm, hview⟩
  cases step_does hr with
  | @setImageWithURL v' url o w =>
    have hne : v' ≠ v := fun he => hv (congrArg some he)
    have hblank : ∀ w', ((s.cancelImageLoad w).setView v' w').Idle v ∧
        ((s.cancelImageLoad w).setView v' w').views v = s.views v := fun w' =>
      ⟨(h.cancelImageLoad w).of_running rfl (List.Subset.refl _), by
        simp [setView, Ne.symm hne, cancelImageLoad_views]⟩
    cases url with
    | none => exact hblank _
    | some u =>
      obtain ⟨hi, hview⟩ := leavesIdle_loadImage hne _ u o (hblank (some ⟨none, u, some o⟩)).1
      exact ⟨hi, hview.trans (hblank _).2⟩
  | @setImage v' | @release v' =>
    have hne : v' ≠ v := fun he => hv (congrArg some he)
    exact hsame rfl rfl (by simp [setView, Ne.symm hne])
  | @queried fresh o image bs =>
    have hpop : Images.Idle { s with mainQueue := bs } v := h.of_running rfl (List.Subset.refl _)
    exact leavesIdle_queried v _ o image fresh hpop
  | @downloaded _ l res bs =>
    have hpop : Images.Idle { s with mainQueue := bs } v := h.of_running rfl (List.Subset.refl _)
    exact (leavesIdle_closed v).runAll (fun s o _ => leavesIdle_downloaded v res s o) _ hpop
  | @addHandlers o d =>
    refine ⟨fun o' ho' op' hop' => ?_, rfl⟩
    by_cases he : o' = o
    · subst he
      obtain ⟨op, hop, rfl⟩ := Option.map_eq_some_iff.mp
        (show (s.operations o').map _ = some op' by simpa [Images.addHandlers] using hop')
      exact h o' ho' op hop
    · exact h o' ho' op' (by simpa [Images.addHandlers, he] using hop')
  | @io j js =>
    obtain ⟨hview, ho, hrun⟩ := runJob_frame { s with ioQueue := js } j
    exact hsame ho hrun (congrFun hview v)
  | evict | expire => exact hsame rfl rfl rfl
  | advance _ hadv =>
    obtain ⟨hview, ho, hrun⟩ := advance_frame hadv
    exact hsame ho hrun (congrFun hview v)

/-- A view that no load is running for keeps its picture, whatever happens, until the view
itself is given another URL or another picture. -/
theorem idle_view_undisturbed {s s' : Images} {h : ImageHistory} {v : ViewId} (hi : s.Idle v)
    (hr : machine.Run s h s') (hv : ∀ m ∈ h, viewOf m.event ≠ some v) :
    s'.Idle v ∧ s'.views v = s.views v := by
  induction hr with
  | nil => exact ⟨hi, rfl⟩
  | @cons h m _ hf ih =>
    obtain ⟨hm, hh⟩ := List.forall_mem_cons.mp hv
    obtain ⟨hi', hview⟩ := ih hh
    obtain ⟨hi'', hview'⟩ := leavesIdle_step (r := (m.after, m.out)) hf hm hi'
    exact ⟨hi'', hview'.trans hview⟩

/-- View 0 has its picture by hand while that of URL "a" is on its way to view `v`. -/
def chooseDuringLoad (v : ViewId) : Images :=
  ((machine.exec [] (launch fun _ => none)
    [.setImageWithURL v (some "a") 0, .setImage 0 "mine"]).map Prod.snd).getD (launch fun _ => none)

def arrival : List ImageEvent :=
  [.io, .main 0, .addHandlers, .start 0, .didComplete 0 (.data (some "A")), .report 0, .main 1]

theorem other_load_leaves_chosen :
    let r := (machine.exec [] (chooseDuringLoad 1) arrival).get (by decide)
    (r.2.views 1).bind ImageView.image = some "A" ∧
      r.2.Idle 0 ∧ r.2.views 0 = (chooseDuringLoad 1).views 0 := by
  intro r
  have hi : (chooseDuringLoad 1).Idle 0 := by
    intro o ho op hop
    obtain rfl : o = 0 := by simpa using (show o ∈ [0] from ho)
    have hview : ((chooseDuringLoad 1).operations 0).map CombinedOperation.view = some 1 := by
      decide
    rw [hop] at hview
    exact fun he => absurd (he.symm.trans (Option.some.inj hview)) (by decide)
  exact ⟨by decide, idle_view_undisturbed hi (Machine.exec_run (by decide)) (by decide)⟩

/-- The view's own load is not cancelled by `setImage:`. -/
theorem own_load_replaces_chosen : ¬ ∀ s h s' v, machine.Run s h s' →
    (∀ m ∈ h, viewOf m.event ≠ some v) → s'.views v = s.views v := by
  intro hall
  let r := (machine.exec [] (chooseDuringLoad 0) arrival).get (by decide)
  have hsame := hall _ r.1 r.2 0 (Machine.exec_run (by decide)) (by decide)
  exact absurd hsame (by decide)

end Images

end Mioto
