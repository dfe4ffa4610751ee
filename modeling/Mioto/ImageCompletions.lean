import Mioto.ImageLoads

/-! How often a load is told. The completion block of a load is called at most once, never after
the load has been cancelled, and a load that runs on will be told unless it came to its download
too late. -/

namespace Mioto

def ImageOutput.completes (o : OperationId) : ImageOutput → Bool
  | .completed o' _ => o' = o
  | .resumed _ => false

namespace Images

/-- How often the completion block of operation `o` has been called. -/
def completions (h : ImageHistory) (o : OperationId) : Nat :=
  (h.flatMap (·.out)).countP (·.completes o)

/-- The same, read off the state. -/
def told (s : Images) (o : OperationId) : Nat :=
  match s.operations o with
  | none => 0
  | some op => if op.cancelled ∨ o ∈ s.runningOperations then 0 else 1

def Tells (s : Images) (r : ImageOutcome) : Prop :=
  ∀ o, r.1.told o = s.told o + r.2.countP (·.completes o)

theorem tells_closed : Sequence.Closed Tells where
  refl s o := by simp
  trans h h' o := by
    rw [h' o, h o, List.countP_append]
    omega

theorem told_congr {s s' : Images} {o : OperationId} (ho : s'.operations o = s.operations o)
    (hr : o ∈ s'.runningOperations ↔ o ∈ s.runningOperations) : s'.told o = s.told o := by
  simp only [told, ho, hr]

theorem tells_of_same {s s' : Images} (ho : s'.operations = s.operations)
    (hr : s'.runningOperations = s.runningOperations) : Tells s (s', []) :=
  fun o => told_congr (congrFun ho o) (by rw [hr])

theorem told_of_none {s : Images} {o : OperationId} (ho : s.operations o = none) :
    s.told o = 0 := by
  simp [told, ho]

theorem told_of_some {s : Images} {o : OperationId} {op : CombinedOperation}
    (ho : s.operations o = some op) :
    s.told o = if op.cancelled ∨ o ∈ s.runningOperations then 0 else 1 := by
  simp [told, ho]

theorem complete_frame (s : Images) (o : OperationId) {op : CombinedOperation}
    (hc : op.cancelled = false) (image : Option UIImage) :
    (s.complete o op image).2 = [.completed o image] ∧
      (s.complete o op image).1.operations = s.operations ∧
      (s.complete o op image).1.runningOperations = s.runningOperations := by
  unfold complete
  rw [if_neg (by simp [hc])]
  refine ⟨rfl, ?_, ?_⟩ <;> simp only <;> split <;> rfl

/-- An operation whose block finds that it is gone had been told or cancelled. -/
theorem tells_gone {s : Images} {o : OperationId} {op : CombinedOperation}
    (hop : s.operations o = some op) (hg : s.isGone o op = true) :
    Tells s (s.removeRunning o, []) := by
  intro o'
  by_cases he : o' = o
  · subst he
    have hg' : o' ∉ s.runningOperations ∨ op.cancelled = true := by simpa [isGone] using hg
    rcases hg' with hr | hc
    · exact told_congr rfl (by simp [removeRunning, hr])
    · simp [told, removeRunning, hop, hc]
  · exact told_congr rfl (by simp [removeRunning, he])

theorem tells_end {s s' : Images} {o : OperationId} {op : CombinedOperation}
    (hop : s.operations o = some op) (hg : s.isGone o op = false)
    (ho : s'.operations = s.operations) (hr : s'.runningOperations = s.runningOperations)
    (image : Option UIImage) :
    Tells s (s'.removeRunning o, [.completed o image]) := by
  obtain ⟨hrun, hc⟩ : o ∈ s.runningOperations ∧ op.cancelled = false := by simpa [isGone] using hg
  intro o'
  by_cases he : o' = o
  · subst he
    simp [told, removeRunning, ho, hop, hrun, hc, ImageOutput.completes]
  · have hno : o ≠ o' := Ne.symm he
    have hsame : (s'.removeRunning o).told o' = s.told o' :=
      told_congr (congrFun ho o') (by simp [removeRunning, hr, he])
    simp [hsame, ImageOutput.completes, hno]

theorem tells_downloaded (r : LoadResult) (s : Images) (o : OperationId) :
    Tells s (downloaded r s o) := by
  unfold downloaded
  cases hop : s.operations o with
  | none => exact tells_closed.refl s
  | some op =>
    simp only
    split_ifs with hg
    · exact tells_gone hop hg
    · have hg' : s.isGone o op = false := by simpa using hg
      have hc : op.cancelled = false := (by simpa [isGone] using hg' :
        o ∈ s.runningOperations ∧ op.cancelled = false).2
      cases r with
      | error code =>
        obtain ⟨hout, ho, hr⟩ := complete_frame s o hc none
        simp only [hout]
        exact tells_end hop hg' ho hr none
      | image x =>
        obtain ⟨hout, ho, hr⟩ := complete_frame (s.storeImage op.url x) o hc (some x)
        simp only [hout]
        exact tells_end hop hg' ho hr (some x)

theorem tells_queried (s : Images) (o : OperationId) (image : Option UIImage) (fresh : DownloadId) :
    Tells s (s.queried o image fresh) := by
  unfold queried
  cases hop : s.operations o with
  | none => exact tells_closed.refl s
  | some op =>
    simp only
    split_ifs with hg
    · exact tells_gone hop hg
    · have hg' : s.isGone o op = false := by simpa using hg
      have hc : op.cancelled = false := (by simpa [isGone] using hg' :
        o ∈ s.runningOperations ∧ op.cancelled = false).2
      cases image with
      | some x =>
        obtain ⟨hout, ho, hr⟩ := complete_frame s o hc (some x)
        simp only [hout]
        exact tells_end hop hg' ho hr (some x)
      | none =>
        have hsame : (s.addProgressCallback o op.url fresh).operations = s.operations ∧
            (s.addProgressCallback o op.url fresh).runningOperations = s.runningOperations := by
          unfold addProgressCallback
          split <;> exact ⟨rfl, rfl⟩
        exact tells_of_same hsame.1 hsame.2

theorem tells_cancelOperation {s : Images} {o : OperationId} {op : CombinedOperation}
    (hop : s.operations o = some op) (ho : o ∈ s.runningOperations) :
    Tells s (s.cancelOperation o op, []) := by
  intro o'
  by_cases he : o' = o
  · subst he
    simp [told, hop, ho]
  · exact told_congr (by simp [he]) (by simp [he])

theorem tells_cancelImageLoad (s : Images) (w : ImageView) : Tells s (s.cancelImageLoad w, []) := by
  unfold cancelImageLoad
  split
  · exact tells_closed.refl s
  · next o hf =>
    split
    · exact tells_closed.refl s
    · next op hop =>
      exact tells_cancelOperation hop (of_decide_eq_true (Option.filter_eq_some_iff.mp hf).2)

theorem tells_loadImage {s : Images} {o : OperationId} (ho : s.operations o = none)
    (hr : o ∉ s.runningOperations) (v : ViewId) (url : String) :
    Tells s (s.loadImage v url o) := by
  have hcomplete : ∀ image, Tells s ((s.setOperation o ⟨v, url, false, false⟩).complete o
      ⟨v, url, false, false⟩ image) := by
    intro image o'
    obtain ⟨hout, hops, hrun⟩ := complete_frame (s.setOperation o ⟨v, url, false, false⟩) o
      (show (⟨v, url, false, false⟩ : CombinedOperation).cancelled = false from rfl) image
    rw [hout]
    by_cases he : o' = o
    · subst he
      have hop := (congrFun hops o').trans (Function.update_self o' _ _)
      rw [told_of_some hop, told_of_none ho, hrun]
      simp [setOperation, hr, ImageOutput.completes]
    · have hno : o ≠ o' := Ne.symm he
      have hsame := told_congr ((congrFun hops o').trans (Function.update_of_ne he _ _))
        (iff_of_eq (congrArg (o' ∈ ·) hrun))
      simpa [ImageOutput.completes, hno] using hsame
  unfold loadImage
  simp only
  split_ifs
  · exact hcomplete none
  · split
    · next x _ => exact hcomplete (some x)
    · intro o'
      by_cases he : o' = o
      · subst he
        simp [told, setOperation, ho]
      · exact told_congr (by simp [setOperation, he]) (by simp [he])

/-! ### One step -/

/-- The main queue adds a callback to a download that has collected its callbacks already. -/
def MissedAt (s : Images) (e : ImageEvent) (o : OperationId) : Prop :=
  e = .addHandlers ∧ ∃ d dl, s.adding = some (o, d) ∧ s.downloads d = some dl ∧
    dl.stage.collects = false

/-- What a step does to the loads that run after it. -/
def Moves (s : Images) (e : ImageEvent) (s' : Images) : Prop :=
  ∀ o ∈ s'.runningOperations, (s.operations o = none ∧ s'.UnderWay o) ∨
    (o ∈ s.runningOperations ∧ (s'.UnderWay o ↔ s.UnderWay o ∧ ¬ MissedAt s e o))

theorem Follows.moves {s s' : Images} (h : Follows s s') {e : ImageEvent} (he : e ≠ .addHandlers) :
    Moves s e s' := fun o ho => (h o ho).imp_right fun ⟨hr, hu⟩ =>
  ⟨hr, hu.trans (by simp [MissedAt, he])⟩

theorem Placed.step {s : Images} (hp : Placed s) {e : ImageEvent} {r : ImageOutcome}
    (hr : s.step e = some r) : Placed r.1 ∧ Moves s e r.1 := by
  have hsame : ∀ {s'}, SameLoads s s' → ∀ {e}, e ≠ .addHandlers → Placed s' ∧ Moves s e s' :=
    fun h _ he => ⟨h.placed hp, h.carries.follows.moves he⟩
  cases step_does hr with
  | setImageWithURL ha hw ho =>
    obtain ⟨hp', hf⟩ := hp.setImageWithURL ha _ _ _ ho
    exact ⟨hp', hf.moves (by simp)⟩
  | setImage | release => exact hsame (sameLoads_setView s _ _) (by simp)
  | queried ha hb hf =>
    obtain ⟨hp', hc⟩ := hp.queriedBlock ha hb hf
    exact ⟨hp', hc.follows.moves (by simp)⟩
  | downloaded hb =>
    obtain ⟨hp', hc⟩ := hp.downloadedBlock hb
    exact ⟨hp', hc.follows.moves (by simp)⟩
  | @addHandlers o d ha =>
    refine ⟨hp.addHandlers ha, fun o' ho' => .inr ⟨ho', (hp.underWay_addHandlers ha o').trans ?_⟩⟩
    refine and_congr_right fun _ => not_congr ⟨?_, ?_⟩
    · rintro ⟨rfl, dl, hd, hc⟩
      exact ⟨rfl, d, dl, ha, hd, hc⟩
    · rintro ⟨-, d', dl, ha', hd, hc⟩
      obtain ⟨rfl, rfl⟩ := Prod.mk.inj (Option.some.inj (ha.symm.trans ha'))
      exact ⟨rfl, dl, hd, hc⟩
  | io hj =>
    obtain ⟨hp', hc⟩ := hp.runJob hj
    exact ⟨hp', hc.follows.moves (by simp)⟩
  | evict | expire =>
    refine hsame ?_ (by simp)
    exact ⟨rfl, fun _ h => h, rfl, rfl, rfl, rfl, rfl⟩
  | advance hd hadv =>
    obtain ⟨hp', hc⟩ := hp.advance hd hadv
    exact ⟨hp', hc.follows.moves (by cases hadv <;> simp)⟩

/-- No thread of a download calls a completion block. -/
theorem completes_advance {s : Images} {d : DownloadId} {dl : DownloaderOperation} {e : ImageEvent}
    {r : ImageOutcome} (hr : Advances s d dl e r) (o : OperationId) :
    r.2.countP (·.completes o) = 0 := by
  cases hr with
  | start =>
    simp only
    split_ifs <;> rfl
  | _ => rfl

theorem Placed.tells {s : Images} (hp : Placed s) {e : ImageEvent} {r : ImageOutcome}
    (hr : s.step e = some r) : Tells s r := by
  cases step_does hr with
  | @setImageWithURL v url o w ha hw ho =>
    have hblank : ∀ w', Tells s ((s.cancelImageLoad w).setView v w', []) :=
      fun w' => tells_closed.trans (tells_cancelImageLoad s w) (tells_of_same rfl rfl)
    cases url with
    | none => exact hblank _
    | some u =>
      have hfresh := (cancelImageLoad_operations s w o).mpr ho
      have hidle : o ∉ (s.cancelImageLoad w).runningOperations := fun hmem => by
        obtain ⟨op, hop, -⟩ := (hp.cancelImageLoad ha w).1.running o hmem
        simp [hfresh] at hop
      exact tells_closed.trans (hblank (some ⟨none, u, some o⟩))
        (tells_loadImage (s := (s.cancelImageLoad w).setView v _) hfresh hidle v u)
  | @queried fresh o image bs =>
    have hpop : Tells s ({ s with mainQueue := bs }, []) := tells_of_same rfl rfl
    exact tells_closed.trans hpop (tells_queried _ o image fresh)
  | @downloaded _ l res bs =>
    have hpop : Tells s ({ s with mainQueue := bs }, []) := tells_of_same rfl rfl
    exact tells_closed.trans hpop (tells_closed.runAll (fun s o _ => tells_downloaded res s o) _)
  | @addHandlers o d =>
    intro o'
    by_cases he : o' = o
    · subst he
      cases hop : s.operations o' with
      | none => simp [told, Images.addHandlers, hop]
      | some op => simp [told, Images.addHandlers, hop]
    · exact told_congr (by simp [Images.addHandlers, he]) Iff.rfl
  | @io j js =>
    obtain ⟨-, ho, hrun⟩ := runJob_frame { s with ioQueue := js } j
    exact tells_of_same ho hrun
  | setImage | release | evict | expire => exact tells_of_same rfl rfl
  | advance _ hadv =>
    obtain ⟨-, ho, hrun⟩ := advance_frame hadv
    intro o
    rw [completes_advance hadv o]
    exact told_congr (congrFun ho o) (by rw [hrun])

theorem operations_loadImage (s : Images) (v : ViewId) (url : String) (o : OperationId) :
    (s.loadImage v url o).1.operations =
      Function.update s.operations o (some ⟨v, url, false, false⟩) := by
  unfold loadImage
  simp only
  split_ifs
  · exact operations_complete _ o _ none
  · split
    · next x _ => exact operations_complete _ o _ (some x)
    · rfl

theorem operations_queried (s : Images) (o : OperationId) (image : Option UIImage)
    (fresh : DownloadId) : (s.queried o image fresh).1.operations = s.operations := by
  unfold queried
  split
  · rfl
  · split_ifs
    · rfl
    · cases image with
      | some x => exact operations_complete s o _ (some x)
      | none =>
        simp only [addProgressCallback]
        split <;> rfl

/-- No load is forgotten. -/
theorem operations_step {s : Images} {e : ImageEvent} {r : ImageOutcome} (hr : s.step e = some r)
    {o : OperationId} (ho : s.operations o ≠ none) : r.1.operations o ≠ none := by
  cases step_does hr with
  | @setImageWithURL v url o' w =>
    have hkept := (cancelImageLoad_operations s w o).not.mpr ho
    cases url with
    | none => exact hkept
    | some u =>
      simp only [Images.setImageWithURL, operations_loadImage]
      by_cases he : o = o'
      · simp [he]
      · rw [Function.update_of_ne he]
        exact hkept
  | queried =>
    rw [operations_queried]
    exact ho
  | @downloaded _ l res =>
    rw [(sameLoads_runAll_downloaded res l _).operations]
    exact ho
  | @addHandlers o' d =>
    by_cases he : o = o'
    · simpa [Images.addHandlers, he] using he ▸ ho
    · simpa [Images.addHandlers, he] using ho
  | @io j =>
    simp only [(runJob_frame _ j).2.1]
    exact ho
  | setImage | release | evict | expire => exact ho
  | advance _ hadv => rwa [(advance_frame hadv).2.1]

/-! ### Whole runs -/

/-- The load came to its download too late. -/
def Missed (h : ImageHistory) (o : OperationId) : Prop :=
  ∃ m ∈ h, MissedAt m.before m.event o

theorem completions_cons (m : ImageMove) (h : ImageHistory) (o : OperationId) :
    completions (m :: h) o = m.out.countP (·.completes o) + completions h o := by
  simp [completions]

theorem missed_cons {m : ImageMove} {h : ImageHistory} {o : OperationId} :
    Missed (m :: h) o ↔ MissedAt m.before m.event o ∨ Missed h o := by
  simp [Missed]

theorem Placed.known_of_missed {s : Images} (hp : Placed s) {e : ImageEvent} {o : OperationId}
    (hm : MissedAt s e o) : s.operations o ≠ none := by
  obtain ⟨-, d, dl, ha, -⟩ := hm
  have htok := hp.early o (by simp [Images.early, ha])
  rintro hnone
  simp [tokenOf, hnone] at htok

/-- What is known of a state and the moves that led there. -/
structure Accounts (h : ImageHistory) (s : Images) : Prop where
  placed : Placed s
  told : ∀ o, completions h o = s.told o
  known : ∀ o, Missed h o → s.operations o ≠ none
  running : ∀ o ∈ s.runningOperations, s.UnderWay o ↔ ¬ Missed h o

theorem Accounts.step {h : ImageHistory} {m : ImageMove} (ha : Accounts h m.before)
    (hf : machine.Fires m) : Accounts (m :: h) m.after := by
  have hstep : m.before.step m.event = some (m.after, m.out) := hf
  obtain ⟨hp, hmoves⟩ := ha.placed.step hstep
  refine ⟨hp, fun o => ?_, fun o hm => ?_, fun o hrun => ?_⟩
  · rw [completions_cons, ha.told o, ha.placed.tells hstep o, Nat.add_comm]
  · refine operations_step hstep ?_
    exact (missed_cons.mp hm).elim ha.placed.known_of_missed (ha.known o)
  · rw [missed_cons, not_or]
    rcases hmoves o hrun with ⟨hnew, hu⟩ | ⟨hold, hu⟩
    · simp only [hu, true_iff]
      exact ⟨fun hm => ha.placed.known_of_missed hm hnew, fun hm => ha.known o hm hnew⟩
    · rw [hu, ha.running o hold, and_comm]

theorem accounts_of_run {s₀ s : Images} {h : ImageHistory} (hl : Launch s₀)
    (hr : machine.Run s₀ h s) : Accounts h s := by
  induction hr with
  | nil =>
    refine ⟨placed_launch hl, fun o => ?_, by simp [Missed], fun o ho => ?_⟩
    · simp [completions, Images.told, hl.operations o]
    · simp [hl.runningOperations] at ho
  | cons _ hf ih => exact ih.step hf

/-- A load that has ended was told once, a cancelled one never, and one that runs on has not
been told and still will be, unless it came to its download too late: then nothing is left that
could tell it. -/
theorem loads_accounted {s₀ s : Images} {h : ImageHistory} (hl : Launch s₀)
    (hr : machine.Run s₀ h s) (o : OperationId) :
    (s.operations o = none → completions h o = 0) ∧
      ∀ op, s.operations o = some op →
        (op.cancelled = true ∧ o ∉ s.runningOperations ∧ completions h o = 0) ∨
        (op.cancelled = false ∧ o ∉ s.runningOperations ∧ completions h o = 1) ∨
        (op.cancelled = false ∧ o ∈ s.runningOperations ∧ completions h o = 0 ∧
          (s.UnderWay o ↔ ¬ Missed h o)) := by
  have ha := accounts_of_run hl hr
  refine ⟨fun hnone => (ha.told o).trans (told_of_none hnone), fun op hop => ?_⟩
  have htold := (ha.told o).trans (told_of_some hop)
  by_cases hrun : o ∈ s.runningOperations
  · obtain ⟨op', hop', hc⟩ := ha.placed.running o hrun
    obtain rfl := Option.some.inj (hop.symm.trans hop')
    exact .inr (.inr ⟨hc, hrun, by simpa [hrun] using htold, ha.running o hrun⟩)
  · cases hc : op.cancelled
    · exact .inr (.inl ⟨rfl, hrun, by simpa [hrun, hc] using htold⟩)
    · exact .inl ⟨rfl, hrun, by simpa [hc] using htold⟩

/-- Load 1 finds the download of load 0, which collects its callbacks before load 1 has added
its own. -/
def lateLoad : List ImageEvent :=
  [.setImageWithURL 0 (some "a") 0, .io, .main 0, .addHandlers, .start 0,
    .didComplete 0 (.data (some "A")), .setImageWithURL 1 (some "a") 1, .io, .main 1, .report 0,
    .addHandlers, .main 1, .done 0, .completionBlock 0]

theorem late_load_accounted :
    let r := (machine.exec [] (launch fun _ => none) lateLoad).get (by decide)
    Missed r.1 1 ∧ completions r.1 0 = 1 ∧ (r.2.operations 1 = none → completions r.1 1 = 0) ∧
      ∀ op, r.2.operations 1 = some op →
        (op.cancelled = true ∧ 1 ∉ r.2.runningOperations ∧ completions r.1 1 = 0) ∨
        (op.cancelled = false ∧ 1 ∉ r.2.runningOperations ∧ completions r.1 1 = 1) ∨
        (op.cancelled = false ∧ 1 ∈ r.2.runningOperations ∧ completions r.1 1 = 0 ∧
          (r.2.UnderWay 1 ↔ ¬ Missed r.1 1)) := by
  intro r
  refine ⟨⟨r.1.get ⟨3, by decide⟩, List.get_mem _ _, by decide, 0,
    ⟨"a", [0], false, .reported⟩, by decide, by decide, rfl⟩, by decide, ?_⟩
  exact loads_accounted (launch_launch fun _ => none) (Machine.exec_run (by decide)) 1

end Images

end Mioto
