import Mioto.ImageTasks

/-! Pictures that the disk cache holds. As long as the file is not removed, every load of its URL
is given this picture and the network is not asked for it, whatever else the queues and the
downloads do. -/

namespace Mioto

theorem DownloaderOperation.collects_of_cancel {dl : DownloaderOperation} {token : OperationId}
    (h : (dl.cancel token).1.stage.collects = true) : dl.stage.collects = true := by
  unfold cancel cancelInternal at h
  split_ifs at h
  · simp only at h
    split at h
    · exact h
    · cases h
    · exact h
  · exact h

namespace Images

/-- The load is of another URL. -/
def Elsewhere (url : String) (s : Images) (o : OperationId) : Prop :=
  ∃ u, s.urlOf o = some u ∧ u ≠ url

/-- The disk cache holds `x`, nothing on its way will change that, and what waits for a load of
the URL is `x`. -/
structure Cached (url : String) (x : UIImage) (s : Images) : Prop where
  named : url ≠ ""
  disk : s.disk url = some x
  memCache : ∀ y, s.memCache url = some y → y = x
  stored : ∀ y, .store url y ∈ s.ioQueue → y = x
  failed : url ∉ s.failedURLs
  queried : ∀ o image, .queried o image ∈ s.mainQueue →
    ∃ u, s.urlOf o = some u ∧ (u = url → image = some x)
  downloaded : ∀ l r, .downloaded l r ∈ s.mainQueue → ∀ o ∈ l, s.Elsewhere url o
  adding : ∀ o d, s.adding = some (o, d) → s.Elsewhere url o
  downloads : ∀ d dl, s.downloads d = some dl → dl.stage.collects = true →
    dl.url ≠ url ∧ ∀ o ∈ dl.callbackBlocks, s.Elsewhere url o

/-- The network is not asked for the URL, and a load of it is given `x`. -/
def Served (url : String) (x : UIImage) (s : Images) : ImageOutput → Prop
  | .completed o image => s.urlOf o = some url → image = some x
  | .resumed u => u ≠ url

section

variable {url : String} {x : UIImage} {s : Images}

theorem cached_launch {disk : String → Option UIImage} (hn : url ≠ "") (hd : disk url = some x) :
    Cached url x (launch disk) :=
  ⟨hn, hd, by simp [launch], by simp [launch], by simp [launch], by simp [launch],
    by simp [launch], by simp [launch], by simp [launch]⟩

/-- Operations may change as long as their URLs stay. -/
theorem Cached.setOperations (h : Cached url x s)
    {operations : OperationId → Option CombinedOperation}
    (hu : ∀ o u, s.urlOf o = some u → (operations o).map (·.url) = some u) :
    Cached url x { s with operations := operations } := by
  have helse : ∀ o, s.Elsewhere url o → Elsewhere url { s with operations := operations } o := by
    rintro o ⟨u, ho, hne⟩
    exact ⟨u, hu o u ho, hne⟩
  refine { h with queried := fun o image hm => ?_, downloaded := ?_, adding := ?_, downloads := ?_ }
  · obtain ⟨u, ho, himage⟩ := h.queried o image hm
    exact ⟨u, hu o u ho, himage⟩
  · exact fun l r hm o ho => helse o (h.downloaded l r hm o ho)
  · exact fun o d ha => helse o (h.adding o d ha)
  · intro d dl hd hc
    obtain ⟨hne, hcb⟩ := h.downloads d dl hd hc
    exact ⟨hne, fun o ho => helse o (hcb o ho)⟩

theorem Cached.setDownload (h : Cached url x s) {d : DownloadId} {dl dl' : DownloaderOperation}
    (hd : s.downloads d = some dl) (hu : dl'.url = dl.url)
    (hcb : ∀ o ∈ dl'.callbackBlocks, o ∈ dl.callbackBlocks)
    (hst : dl'.stage.collects = true → dl.stage.collects = true) :
    Cached url x (s.setDownload d dl') := by
  refine { h with downloads := fun d' dl'' hd' hc => ?_ }
  by_cases he : d' = d
  · obtain rfl : dl' = dl'' := by simpa [Images.setDownload, he] using hd'
    obtain ⟨hne, hall⟩ := h.downloads d dl hd (hst hc)
    exact ⟨hu ▸ hne, fun o ho => hall o (hcb o ho)⟩
  · exact h.downloads d' dl'' (by simpa [Images.setDownload, he] using hd') hc

theorem Cached.cancelDownload (h : Cached url x s) (u : String) (o : OperationId) :
    Cached url x (s.cancelDownload u o) := by
  unfold Images.cancelDownload
  cases hu : s.URLOperations u with
  | none => exact h
  | some d =>
    cases hd : s.downloads d with
    | none => simpa only [hd] using h
    | some dl =>
      simp only [hd]
      have hset : Cached url x (s.setDownload d (dl.cancel o).1) := by
        refine h.setDownload hd (by simp) (fun o' ho' => ?_) DownloaderOperation.collects_of_cancel
        rw [DownloaderOperation.callbackBlocks_cancel] at ho'
        exact List.mem_of_mem_filter ho'
      exact { hset with }

theorem Cached.cancelImageLoad (h : Cached url x s) (w : ImageView) :
    Cached url x (s.cancelImageLoad w) := by
  unfold Images.cancelImageLoad
  split
  · exact h
  · next o _ =>
    split
    · exact h
    · next op hop =>
      have hset : Cached url x (s.setOperation o { op with cancelled := true }) := by
        refine h.setOperations fun o' u hu => ?_
        by_cases he : o' = o
        · subst he
          simpa [urlOf, hop] using hu
        · simpa [urlOf, he] using hu
      have hs : Cached url x
          ((s.setOperation o { op with cancelled := true }).removeRunning o) := { hset with }
      unfold Images.cancelOperation
      simp only
      split_ifs
      · rw [removeRunning_cancelDownload]
        exact hs.cancelDownload op.url o
      · exact hs

/-! ### Blocks of the main queue -/

theorem complete_eq (s : Images) (o : OperationId) (op : CombinedOperation)
    (image : Option UIImage) : (s.complete o op image).1 =
      { s with views := (s.complete o op image).1.views } := by
  unfold complete
  split_ifs
  · rfl
  · simp only
    split <;> rfl

theorem Cached.complete (h : Cached url x s) (o : OperationId) (op : CombinedOperation)
    (image : Option UIImage) : Cached url x (s.complete o op image).1 := by
  rw [complete_eq]
  exact { h with }

theorem Cached.removeRunning (h : Cached url x s) (o : OperationId) :
    Cached url x (s.removeRunning o) := { h with }

theorem served_complete {o : OperationId} {op : CombinedOperation} {image : Option UIImage}
    (hop : s.operations o = some op) (hi : op.url = url → image = some x) :
    ∀ b ∈ (s.complete o op image).2, Served url x s b := by
  unfold Images.complete
  split_ifs
  · simp
  · intro b hb
    obtain rfl := List.mem_singleton.mp hb
    exact fun hu => hi (by simpa [urlOf, hop] using hu)

theorem Served.of_operations {s s' : Images} (ho : s'.operations = s.operations)
    {b : ImageOutput} (h : Served url x s b) : Served url x s' b := by
  cases b with
  | completed => simpa only [Served, urlOf, ho] using h
  | resumed => exact h

/-- What a block does that is called for the loads in `l`. -/
def Serves (url : String) (x : UIImage) (l : List OperationId) (s : Images) (r : ImageOutcome) :
    Prop :=
  (∀ o ∈ l, s.Elsewhere url o) → Cached url x s →
    r.1.operations = s.operations ∧ Cached url x r.1 ∧ ∀ b ∈ r.2, Served url x s b

theorem serves_closed (url : String) (x : UIImage) (l : List OperationId) :
    Sequence.Closed (Serves url x l) where
  refl s _ hs := ⟨rfl, hs, by simp⟩
  trans h h' hl hs := by
    obtain ⟨ho, hs', hb⟩ := h hl hs
    have hl' : ∀ o ∈ l, Elsewhere url _ o := fun o hm => by
      obtain ⟨u, hu, hne⟩ := hl o hm
      exact ⟨u, by rw [urlOf, ho]; exact hu, hne⟩
    obtain ⟨ho', hs'', hb'⟩ := h' hl' hs'
    exact ⟨ho'.trans ho, hs'', List.forall_mem_append.mpr
      ⟨hb, fun b hm => (hb' b hm).of_operations ho.symm⟩⟩

theorem Cached.storeImage (h : Cached url x s) {u : String} (hu : u ≠ url) (y : UIImage) :
    Cached url x (s.storeImage u y) := by
  refine { h with memCache := fun z hz => ?_, stored := fun z hz => ?_ }
  · exact h.memCache z (by simpa [Images.storeImage, Ne.symm hu] using hz)
  · rcases List.mem_append.mp hz with hz | hz
    · exact h.stored z hz
    · exact absurd (Job.store.inj (List.mem_singleton.mp hz)).1.symm hu

theorem serves_downloaded (r : LoadResult) {l : List OperationId} (s : Images) {o : OperationId}
    (ho : o ∈ l) : Serves url x l s (downloaded r s o) := by
  intro hl h
  unfold downloaded
  cases hop : s.operations o with
  | none => exact ⟨rfl, h, by simp⟩
  | some op =>
    obtain ⟨u, hu, hne⟩ := hl o ho
    obtain rfl : op.url = u := by simpa [urlOf, hop] using hu
    have hother : ∀ {image}, op.url = url → image = some x := fun he => absurd he hne
    simp only
    split_ifs
    · exact ⟨rfl, h.removeRunning o, by simp⟩
    · cases r with
      | error code =>
        have hblock : Cached url x { (s.complete o op none).1 with
            failedURLs := if shouldBlockFailedURL code then op.url :: s.failedURLs
              else s.failedURLs } := by
          refine { h.complete o op none with failed := ?_ }
          split_ifs
          · simpa using ⟨Ne.symm hne, h.failed⟩
          · exact h.failed
        exact ⟨operations_complete s o op none, hblock.removeRunning o,
          served_complete hop hother⟩
      | image y =>
        exact ⟨operations_complete (s.storeImage op.url y) o op _,
          ((h.storeImage hne y).complete o op _).removeRunning o,
          served_complete (s := s.storeImage op.url y) hop hother⟩

theorem Cached.addProgressCallback (h : Cached url x s) {o : OperationId} {u : String}
    (ho : s.urlOf o = some u) (hu : u ≠ url) (fresh : DownloadId) :
    Cached url x (s.addProgressCallback o u fresh) := by
  have hadd : ∀ {d : DownloadId} o' d', some (o, d) = some (o', d') → s.Elsewhere url o' := by
    rintro d o' d' he
    obtain ⟨rfl, -⟩ := Prod.mk.inj (Option.some.inj he)
    exact ⟨u, ho, hu⟩
  unfold Images.addProgressCallback
  split
  · exact { h with adding := hadd }
  · refine { h with adding := hadd, downloads := fun d dl hd hc => ?_ }
    by_cases he : d = fresh
    · obtain rfl : _ = dl := by simpa [he] using hd
      exact ⟨hu, by simp⟩
    · exact h.downloads d dl (by simpa [he] using hd) hc

/-- A query that has found the picture does not go on to the downloader. -/
theorem Cached.queriedBlock (h : Cached url x s) {o : OperationId} {image : Option UIImage}
    (hi : ∀ u, s.urlOf o = some u → u = url → image = some x) (fresh : DownloadId) :
    Cached url x (s.queried o image fresh).1 ∧
      ∀ b ∈ (s.queried o image fresh).2, Served url x (s.queried o image fresh).1 b := by
  unfold Images.queried
  cases hop : s.operations o with
  | none => exact ⟨h, by simp⟩
  | some op =>
    have hu : s.urlOf o = some op.url := by simp [urlOf, hop]
    simp only
    split_ifs
    · exact ⟨h.removeRunning o, by simp⟩
    · cases image with
      | some y =>
        exact ⟨(h.complete o op _).removeRunning o, fun b hb =>
          (served_complete hop (hi op.url hu) b hb).of_operations (operations_complete s o op _)⟩
      | none =>
        have hne : op.url ≠ url := fun he => by cases hi op.url hu he
        exact ⟨h.addProgressCallback hu hne fresh, by simp⟩

/-! ### The other steps -/

theorem Cached.pop (h : Cached url x s) {b : Block} {bs : List Block} (hb : s.mainQueue = b :: bs) :
    Cached url x { s with mainQueue := bs } :=
  { h with
    queried := fun o image hm => h.queried o image (hb ▸ List.mem_cons_of_mem b hm)
    downloaded := fun l r hm => h.downloaded l r (hb ▸ List.mem_cons_of_mem b hm) }

theorem Cached.loadImage (h : Cached url x s) {o : OperationId} (ho : s.operations o = none)
    (v : ViewId) (u : String) : Cached url x (s.loadImage v u o).1 ∧
      ∀ b ∈ (s.loadImage v u o).2, Served url x (s.loadImage v u o).1 b := by
  have hs : Cached url x (s.setOperation o ⟨v, u, false, false⟩) := by
    refine h.setOperations fun o' u' hu' => ?_
    have hne : o' ≠ o := by
      rintro rfl
      simp [urlOf, ho] at hu'
    simpa [urlOf, hne] using hu'
  have hop : (s.setOperation o ⟨v, u, false, false⟩).operations o =
      some ⟨v, u, false, false⟩ := Function.update_self o _ _
  have hcomplete : ∀ image : Option UIImage, (u = url → image = some x) →
      let r := (s.setOperation o ⟨v, u, false, false⟩).complete o ⟨v, u, false, false⟩ image
      Cached url x r.1 ∧ ∀ b ∈ r.2, Served url x r.1 b := fun image hi =>
    ⟨hs.complete o _ image, fun b hb =>
      (served_complete hop hi b hb).of_operations (operations_complete _ o _ image)⟩
  unfold Images.loadImage
  simp only
  split_ifs with hskip
  · refine hcomplete none fun he => ?_
    rcases hskip with hskip | hskip
    · exact absurd (he ▸ hskip) h.named
    · exact absurd (he ▸ hskip) h.failed
  · split
    · next y hy => exact hcomplete (some y) fun he => congrArg some (h.memCache y (he ▸ hy))
    · exact ⟨{ hs with stored := fun y hy => h.stored y (by simpa using hy) }, by simp⟩

theorem Cached.runJob (h : Cached url x s) {j : Job} {js : List Job} (hj : s.ioQueue = j :: js) :
    Cached url x ({ s with ioQueue := js }.runJob j) := by
  have hs : Cached url x { s with ioQueue := js } :=
    { h with stored := fun y hy => h.stored y (hj ▸ List.mem_cons_of_mem j hy) }
  cases j with
  | store u y =>
    refine { hs with disk := ?_ }
    by_cases he : url = u
    · subst he
      simpa [Images.runJob] using h.stored y (hj ▸ List.mem_cons_self)
    · simpa [Images.runJob, he] using h.disk
  | query o =>
    unfold Images.runJob
    simp only
    split
    · exact hs
    · next op hop =>
      split_ifs
      · exact hs
      · refine { hs with memCache := fun y hy => ?_, queried := ?_, downloaded := ?_ }
        · by_cases he : url = op.url
          · subst he
            simpa [h.disk, eq_comm] using hy
          · refine h.memCache y ?_
            cases hd : s.disk op.url <;> simpa [hd, he] using hy
        · intro o' image hm
          rcases List.mem_append.mp hm with hm | hm
          · exact h.queried o' image hm
          · obtain ⟨rfl, rfl⟩ := Block.queried.inj (List.mem_singleton.mp hm)
            exact ⟨op.url, by simp [urlOf, hop], fun he => he ▸ h.disk⟩
        · exact fun l r hm => h.downloaded l r (by simpa using hm)

theorem Cached.addHandlers (h : Cached url x s) {o : OperationId} {d : DownloadId}
    (ha : s.adding = some (o, d)) : Cached url x (s.addHandlers o d) := by
  have hops : Cached url x { s with operations := (s.addHandlers o d).operations } := by
    refine h.setOperations fun o' u hu => ?_
    by_cases he : o' = o
    · subst he
      simpa [urlOf, Images.addHandlers, Option.map_map, Function.comp_def] using hu
    · simpa [urlOf, Images.addHandlers, he] using hu
  refine { hops with adding := by simp [Images.addHandlers], downloads := fun d' dl hd' hc => ?_ }
  by_cases he : d' = d
  · subst he
    obtain ⟨dl₀, hd₀, rfl⟩ := Option.map_eq_some_iff.mp
      (show (s.downloads d').map _ = some dl by simpa [Images.addHandlers] using hd')
    obtain ⟨hne, hcb⟩ := hops.downloads d' dl₀ hd₀ hc
    refine ⟨hne, fun o' ho' => ?_⟩
    rcases List.mem_append.mp ho' with ho' | ho'
    · exact hcb o' ho'
    · obtain rfl := List.mem_singleton.mp ho'
      exact hops.adding o' d' ha
  · exact hops.downloads d' dl (by simpa [Images.addHandlers, he] using hd') hc

theorem Cached.advance (h : Cached url x s) {d : DownloadId} {dl : DownloaderOperation}
    (hd : s.downloads d = some dl) {e : ImageEvent} {r : ImageOutcome}
    (hr : Advances s d dl e r) : Cached url x r.1 ∧ ∀ b ∈ r.2, Served url x r.1 b := by
  cases hr with
  | start hst =>
    have hc : dl.stage.collects = true := by simp [hst, Stage.collects]
    refine ⟨h.setDownload hd (by simp) (fun o ho => ?_) fun _ => hc, fun b hb => ?_⟩
    · rw [dl.callbackBlocks_start] at ho
      split_ifs at ho
      · cases ho
      · exact ho
    · simp only at hb
      split_ifs at hb
      · cases hb
      · obtain rfl := List.mem_singleton.mp hb
        exact (h.downloads d dl hd hc).1
  | didComplete res hst =>
    exact ⟨h.setDownload hd (by simp) (by simp) fun _ => by simp [hst, Stage.collects], by simp⟩
  | report res hst =>
    have hc : dl.stage.collects = true := by simp [hst, Stage.collects]
    have hset : Cached url x (s.setDownload d { dl with stage := .reported }) :=
      h.setDownload hd rfl (fun _ ho => ho) fun _ => hc
    refine ⟨{ hset with queried := fun o image hm => ?_, downloaded := ?_ }, by simp⟩
    · exact h.queried o image (by simpa using hm)
    · intro l r hm o ho
      rcases List.mem_append.mp hm with hm | hm
      · exact h.downloaded l r hm o ho
      · obtain ⟨rfl, -⟩ := Block.downloaded.inj (List.mem_singleton.mp hm)
        exact (h.downloads d dl hd hc).2 o ho
  | done =>
    exact ⟨h.setDownload hd rfl (by simp [DownloaderOperation.done])
      (by simp [DownloaderOperation.done, Stage.collects]), by simp⟩
  | completionBlock =>
    have hset : Cached url x (s.setDownload d { dl with stage := .finished true }) :=
      h.setDownload hd rfl (fun _ ho => ho) (by simp [Stage.collects])
    exact ⟨{ hset with }, by simp⟩

theorem cached_step (h : Cached url x s) {e : ImageEvent} {r : ImageOutcome}
    (hr : s.step e = some r) (he : e ≠ .expire url) :
    Cached url x r.1 ∧ ∀ b ∈ r.2, Served url x r.1 b := by
  cases step_does hr with
  | @setImageWithURL v u o w _ _ ho =>
    have hblank : ∀ w', Cached url x ((s.cancelImageLoad w).setView v w') :=
      fun w' => { h.cancelImageLoad w with }
    cases u with
    | none => exact ⟨hblank _, by simp [Images.setImageWithURL]⟩
    | some u =>
      have hfresh := (cancelImageLoad_operations s w o).mpr ho
      exact (hblank _).loadImage hfresh v u
  | setImage | release => exact ⟨{ h with }, by simp⟩
  | @queried fresh o image _ _ hb =>
    refine (h.pop hb).queriedBlock (fun u hu hurl => ?_) fresh
    obtain ⟨u', hu', himage⟩ := h.queried o image (hb ▸ List.mem_cons_self)
    obtain rfl := Option.some.inj (hu.symm.trans hu')
    exact himage hurl
  | @downloaded _ l res bs hb =>
    obtain ⟨ho, hs, hserved⟩ := (serves_closed url x l).runAll
      (fun s o hm => serves_downloaded res s hm) { s with mainQueue := bs }
      (h.downloaded l res (hb ▸ List.mem_cons_self)) (h.pop hb)
    exact ⟨hs, fun b hm => (hserved b hm).of_operations ho⟩
  | addHandlers ha => exact ⟨h.addHandlers ha, by simp⟩
  | io hj => exact ⟨h.runJob hj, by simp⟩
  | advance hd hadv => exact h.advance hd hadv
  | @evict u =>
    refine ⟨{ h with memCache := fun y hy => ?_ }, by simp⟩
    by_cases hu : url = u
    · simp [hu] at hy
    · exact h.memCache y (by simpa [hu] using hy)
  | @expire u =>
    have hu : url ≠ u := fun hu => he (congrArg ImageEvent.expire hu.symm)
    exact ⟨{ h with disk := by simpa [hu] using h.disk }, by simp⟩

/-- A picture that the disk cache holds, and that nothing on its way replaces, is what every load
of its URL is given, whichever views ask for it and whatever the memory cache drops; the network
is not asked for it. -/
theorem cached_served {s' : Images} {h : ImageHistory} (hs : Cached url x s)
    (hr : machine.Run s h s') (he : ∀ m ∈ h, m.event ≠ .expire url) :
    Cached url x s' ∧ ∀ m ∈ h, ∀ b ∈ m.out, Served url x m.after b := by
  induction hr with
  | nil => exact ⟨hs, by simp⟩
  | @cons h m _ hf ih =>
    obtain ⟨hm, hh⟩ := List.forall_mem_cons.mp he
    obtain ⟨hcached, hall⟩ := ih hh
    obtain ⟨hcached', hout⟩ := cached_step (r := (m.after, m.out)) hcached hf hm
    exact ⟨hcached', List.forall_mem_cons.mpr ⟨hout, hall⟩⟩

/-- The picture is shown twice, and the memory cache drops it in between. -/
def askTwice : List ImageEvent :=
  [.setImageWithURL 0 (some "a") 0, .setImageWithURL 1 (some "b") 1, .io, .io, .main 0, .main 0,
    .evict "a", .addHandlers, .start 0, .setImageWithURL 1 (some "a") 2, .io, .main 1]

theorem asked_twice_served :
    let r := (machine.exec [] (launch (Function.update (fun _ => none) "a" (some "A")))
      askTwice).get (by decide)
    r.1.flatMap Move.out = [.completed 2 (some "A"), .resumed "b", .completed 0 (some "A")] ∧
      Cached "a" "A" r.2 ∧ ∀ m ∈ r.1, ∀ b ∈ m.out, Served "a" "A" m.after b := by
  intro r
  exact ⟨by decide, cached_served (cached_launch (by decide) (Function.update_self "a" _ _))
    (Machine.exec_run (by decide)) (by decide)⟩

end

end Images

end Mioto
