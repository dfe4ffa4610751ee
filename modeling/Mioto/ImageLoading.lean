import Mioto.Machine
import Mioto.Sequence
import Mathlib.Logic.Function.Basic

/-! Pictures: `sd_setImageWithURL:` of an image view over the manager, the cache and the
downloader of SDWebImage. The main queue, the queue of the cache and the threads of the
downloads run side by side; what runs under one lock, or in one block of a queue, is one step. -/

namespace Mioto

/-- What a picture looks like. -/
abbrev UIImage := String

abbrev ViewId := Nat

/-- Objects by their addresses. -/
abbrev OperationId := Nat

abbrev DownloadId := Nat

/-- `loadOperation` is the entry of the view in its weak operation dictionary. -/
structure ImageView where
  image : Option UIImage
  imageURL : Option String
  loadOperation : Option OperationId
  deriving DecidableEq

/-- `view` is what the completion block captured. -/
structure CombinedOperation where
  view : ViewId
  url : String
  cancelled : Bool
  downloadToken : Bool
  deriving DecidableEq

inductive LoadResult
  | error (code : Int)
  | image (x : UIImage)
  deriving DecidableEq

/-- How the session ends a task. Data may be missing, or have no pixels in it. -/
inductive SessionResult
  | error (code : Int)
  | data (image : Option UIImage)
  deriving DecidableEq

inductive Stage
  | waiting
  | executing
  | answered (r : LoadResult)      -- the completion blocks have not been collected
  | reported                       -- `done` has not been called
  | finished (completionBlock : Bool)
  deriving DecidableEq

/-- A callback is known by the operation whose block it is. -/
structure DownloaderOperation where
  url : String
  callbackBlocks : List OperationId
  cancelled : Bool
  stage : Stage
  deriving DecidableEq

inductive Job
  | query (o : OperationId)
  | store (url : String) (x : UIImage)
  deriving DecidableEq

inductive Block
  | queried (o : OperationId) (diskImage : Option UIImage)
  | downloaded (completionBlocks : List OperationId) (r : LoadResult)
  deriving DecidableEq

/-- `adding` is where the main queue is between the two locks of `addProgressCallback:`: the
operation that wants to be told, and the download that will. -/
structure Images where
  views : ViewId → Option ImageView
  operations : OperationId → Option CombinedOperation
  runningOperations : List OperationId
  failedURLs : List String
  memCache : String → Option UIImage
  disk : String → Option UIImage
  ioQueue : List Job
  mainQueue : List Block
  adding : Option (OperationId × DownloadId)
  URLOperations : String → Option DownloadId
  downloads : DownloadId → Option DownloaderOperation

inductive ImageOutput
  | completed (o : OperationId) (image : Option UIImage)
  | resumed (url : String)
  deriving DecidableEq

abbrev ImageOutcome := Images × List ImageOutput

inductive ImageEvent
  | setImageWithURL (v : ViewId) (url : Option String) (fresh : OperationId)
  | setImage (v : ViewId) (x : UIImage)
  | release (v : ViewId)
  | main (fresh : DownloadId)
  | addHandlers
  | io
  | start (d : DownloadId)
  | didComplete (d : DownloadId) (r : SessionResult)
  | report (d : DownloadId)
  | done (d : DownloadId)
  | completionBlock (d : DownloadId)
  | evict (url : String)
  | expire (url : String)
  deriving DecidableEq

/-! `SDWebImageDownloaderOperation`. -/

namespace DownloaderOperation

def isFinished (dl : DownloaderOperation) : Bool :=
  match dl.stage with
  | .finished _ => true
  | _ => false

/-- A task that is cancelled ends its operation; before and after the task, `start` or `done`
will. -/
def cancelInternal (dl : DownloaderOperation) : DownloaderOperation :=
  match dl.stage with
  | .finished _ => dl
  | .executing =>
    { dl with cancelled := true, stage := .finished false, callbackBlocks := [] }
  | _ => { dl with cancelled := true, callbackBlocks := [] }

def cancel (dl : DownloaderOperation) (token : OperationId) : DownloaderOperation × Bool :=
  if dl.callbackBlocks.filter (· != token) = [] then
    (cancelInternal { dl with callbackBlocks := [] }, true)
  else ({ dl with callbackBlocks := dl.callbackBlocks.filter (· != token) }, false)

def start (dl : DownloaderOperation) : DownloaderOperation :=
  if dl.cancelled then { dl with stage := .finished false, callbackBlocks := [] }
  else { dl with stage := .executing }

/-- Without callbacks the data is not looked at. -/
def didComplete (dl : DownloaderOperation) : SessionResult → DownloaderOperation
  | .error code => { dl with stage := .answered (.error code) }
  | .data image =>
    if dl.callbackBlocks = [] then { dl with stage := .reported }
    else
      match image with
      | some x => { dl with stage := .answered (.image x) }
      | none => { dl with stage := .answered (.error 0) }

def done (dl : DownloaderOperation) : DownloaderOperation :=
  { dl with stage := .finished false, callbackBlocks := [] }

@[simp] theorem cancelInternal_url (dl : DownloaderOperation) : dl.cancelInternal.url = dl.url := by
  unfold cancelInternal
  split <;> rfl

@[simp] theorem cancel_url (dl : DownloaderOperation) (token : OperationId) :
    (dl.cancel token).1.url = dl.url := by
  unfold cancel
  split_ifs <;> simp

@[simp] theorem start_url (dl : DownloaderOperation) : dl.start.url = dl.url := by
  unfold start
  split_ifs <;> rfl

@[simp] theorem didComplete_url (dl : DownloaderOperation) (r : SessionResult) :
    (dl.didComplete r).url = dl.url := by
  cases r with
  | error => rfl
  | data image =>
    unfold didComplete
    split_ifs
    · rfl
    · cases image <;> rfl

@[simp] theorem start_cancelled (dl : DownloaderOperation) : dl.start.cancelled = dl.cancelled := by
  unfold start
  split_ifs <;> rfl

@[simp] theorem didComplete_cancelled (dl : DownloaderOperation) (r : SessionResult) :
    (dl.didComplete r).cancelled = dl.cancelled := by
  cases r with
  | error => rfl
  | data image =>
    unfold didComplete
    split_ifs
    · rfl
    · cases image <;> rfl

theorem stage_cancelInternal {dl : DownloaderOperation} {r : LoadResult}
    (h : dl.cancelInternal.stage = .answered r) : dl.stage = .answered r := by
  unfold cancelInternal at h
  split at h
  · exact h
  · cases h
  · exact h

theorem callbackBlocks_cancelInternal (dl : DownloaderOperation) :
    dl.cancelInternal.callbackBlocks = [] ∨ dl.cancelInternal = dl := by
  unfold cancelInternal
  split <;> simp

/-- What is left of the callbacks once one is taken back. -/
theorem callbackBlocks_cancel (dl : DownloaderOperation) (token : OperationId) :
    (dl.cancel token).1.callbackBlocks = dl.callbackBlocks.filter (· != token) := by
  unfold cancel
  split_ifs with h
  · rw [h]
    rcases callbackBlocks_cancelInternal { dl with callbackBlocks := [] } with he | he
    · exact he
    · rw [he]
  · rfl

theorem stage_cancel {dl : DownloaderOperation} {token : OperationId} {r : LoadResult}
    (h : (dl.cancel token).1.stage = .answered r) : dl.stage = .answered r := by
  unfold cancel at h
  split_ifs at h
  · exact @stage_cancelInternal { dl with callbackBlocks := [] } r h
  · exact h

theorem callbackBlocks_start (dl : DownloaderOperation) :
    dl.start.callbackBlocks = if dl.cancelled then [] else dl.callbackBlocks := by
  unfold start
  split_ifs <;> rfl

@[simp] theorem callbackBlocks_didComplete (dl : DownloaderOperation) (r : SessionResult) :
    (dl.didComplete r).callbackBlocks = dl.callbackBlocks := by
  cases r with
  | error => rfl
  | data image =>
    unfold didComplete
    split_ifs
    · rfl
    · cases image <;> rfl

/-- A task answers with a picture only when the session has given it one. -/
theorem stage_didComplete {dl : DownloaderOperation} {r : SessionResult} {x : UIImage}
    (h : (dl.didComplete r).stage = .answered (.image x)) : r = .data (some x) := by
  cases r with
  | error => cases h
  | data image =>
    unfold didComplete at h
    split_ifs at h
    cases image <;> cases h
    rfl

end DownloaderOperation

namespace Images

/-! `SDWebImageManager`. -/

/-- Not connected, cancelled, timed out, roaming off, data not allowed, cannot find host, cannot
connect to host, connection lost. -/
def transient : List Int := [-1009, -999, -1001, -1018, -1020, -1003, -1004, -1005]

def shouldBlockFailedURL (code : Int) : Bool := code ∉ transient

def removeRunning (s : Images) (o : OperationId) : Images :=
  { s with runningOperations := s.runningOperations.filter (· != o) }

/-- The completion block of a view: without an image it only lays the view out. -/
def complete (s : Images) (o : OperationId) (op : CombinedOperation) (image : Option UIImage) :
    ImageOutcome :=
  if op.cancelled then (s, [])
  else
    (match image, s.views op.view with
      | some x, some w =>
        { s with views := Function.update s.views op.view (some { w with image := some x }) }
      | _, _ => s, [.completed o image])

/-- The download of the URL may by now be another one. -/
def cancelDownload (s : Images) (url : String) (token : OperationId) : Images :=
  match s.URLOperations url with
  | none => s
  | some d =>
    match s.downloads d with
    | none => s
    | some dl =>
      { s with
        downloads := Function.update s.downloads d (some (dl.cancel token).1)
        URLOperations :=
          if (dl.cancel token).2 then Function.update s.URLOperations url none
          else s.URLOperations }

def setOperation (s : Images) (o : OperationId) (op : CombinedOperation) : Images :=
  { s with operations := Function.update s.operations o (some op) }

def cancelOperation (s : Images) (o : OperationId) (op : CombinedOperation) : Images :=
  let s' := s.setOperation o { op with cancelled := true }
  (if op.downloadToken then s'.cancelDownload op.url o else s').removeRunning o

/-- The first half of `addProgressCallback:`. -/
def addProgressCallback (s : Images) (o : OperationId) (url : String) (fresh : DownloadId) :
    Images :=
  match (s.URLOperations url).filter fun d =>
    (s.downloads d).any fun dl => !dl.isFinished with
  | some d => { s with adding := some (o, d) }
  | none =>
    { s with
      downloads := Function.update s.downloads fresh (some ⟨url, [], false, .waiting⟩)
      URLOperations := Function.update s.URLOperations url (some fresh)
      adding := some (o, fresh) }

/-- An operation that runs no longer is gone, and its blocks find nil. -/
def isGone (s : Images) (o : OperationId) (op : CombinedOperation) : Bool :=
  o ∉ s.runningOperations ∨ op.cancelled

def queried (s : Images) (o : OperationId) (cachedImage : Option UIImage) (fresh : DownloadId) :
    ImageOutcome :=
  match s.operations o with
  | none => (s, [])
  | some op =>
    if s.isGone o op then (s.removeRunning o, [])
    else
      match cachedImage with
      | some x => ((s.complete o op (some x)).1.removeRunning o, (s.complete o op (some x)).2)
      | none => (s.addProgressCallback o op.url fresh, [])

def storeImage (s : Images) (url : String) (x : UIImage) : Images :=
  { s with
    memCache := Function.update s.memCache url (some x)
    ioQueue := s.ioQueue ++ [.store url x] }

def downloaded (r : LoadResult) (s : Images) (o : OperationId) : ImageOutcome :=
  match s.operations o with
  | none => (s, [])
  | some op =>
    if s.isGone o op then (s.removeRunning o, [])
    else
      match r with
      | .error code =>
        ({ (s.complete o op none).1 with
          failedURLs := if shouldBlockFailedURL code then op.url :: s.failedURLs
            else s.failedURLs }.removeRunning o, (s.complete o op none).2)
      | .image x =>
        (((s.storeImage op.url x).complete o op (some x)).1.removeRunning o,
          ((s.storeImage op.url x).complete o op (some x)).2)

def loadImage (s : Images) (v : ViewId) (url : String) (o : OperationId) : ImageOutcome :=
  let op : CombinedOperation := ⟨v, url, false, false⟩
  let s' := s.setOperation o op
  if url = "" ∨ url ∈ s.failedURLs then s'.complete o op none
  else
    match s.memCache url with
    | some x => s'.complete o op (some x)
    | none =>
      ({ s' with
        runningOperations := s.runningOperations ++ [o]
        ioQueue := s.ioQueue ++ [.query o] }, [])

/-! The views. -/

def cancelImageLoad (s : Images) (w : ImageView) : Images :=
  match w.loadOperation.filter (· ∈ s.runningOperations) with
  | none => s
  | some o =>
    match s.operations o with
    | none => s
    | some op => s.cancelOperation o op

def setView (s : Images) (v : ViewId) (w : Option ImageView) : Images :=
  { s with views := Function.update s.views v w }

/-- The entry is made before the load and not after it; the load does not read it. -/
def setImageWithURL (s : Images) (v : ViewId) (w : ImageView) (url : Option String)
    (o : OperationId) : ImageOutcome :=
  match url with
  | none => ((s.cancelImageLoad w).setView v (some ⟨none, none, none⟩), [])
  | some u => ((s.cancelImageLoad w).setView v (some ⟨none, u, some o⟩)).loadImage v u o

/-! The queues and the threads. -/

def runBlock (s : Images) (fresh : DownloadId) : Block → ImageOutcome
  | .queried o diskImage => s.queried o diskImage fresh
  | .downloaded completionBlocks r =>
    Sequence.runAll (fun _ : Images => false) (downloaded r) s completionBlocks

def addHandlers (s : Images) (o : OperationId) (d : DownloadId) : Images :=
  { s with
    adding := none
    operations := Function.update s.operations o
      ((s.operations o).map fun op => { op with downloadToken := true })
    downloads := Function.update s.downloads d
      ((s.downloads d).map fun dl => { dl with callbackBlocks := dl.callbackBlocks ++ [o] }) }

/-- The query of an operation that was cancelled is dropped. -/
def runJob (s : Images) : Job → Images
  | .query o =>
    match s.operations o with
    | none => s
    | some op =>
      if op.cancelled then s
      else
        { s with
          memCache := match s.disk op.url with
            | some x => Function.update s.memCache op.url (some x)
            | none => s.memCache
          mainQueue := s.mainQueue ++ [.queried o (s.disk op.url)] }
  | .store url x => { s with disk := Function.update s.disk url (some x) }

def setDownload (s : Images) (d : DownloadId) (dl : DownloaderOperation) : Images :=
  { s with downloads := Function.update s.downloads d (some dl) }

/-- What a thread of download `d` does next; `none` when it is not its turn. -/
def advance (s : Images) (d : DownloadId) (dl : DownloaderOperation) :
    ImageEvent → Option ImageOutcome
  | .start _ =>
    if dl.stage = .waiting then
      some (s.setDownload d dl.start, if dl.cancelled then [] else [.resumed dl.url])
    else none
  | .didComplete _ r =>
    if dl.stage = .executing then some (s.setDownload d (dl.didComplete r), []) else none
  | .report _ =>
    match dl.stage with
    | .answered r =>
      some ({ s.setDownload d { dl with stage := .reported } with
        mainQueue := s.mainQueue ++ [.downloaded dl.callbackBlocks r] }, [])
    | _ => none
  | .done _ => if dl.stage = .reported then some (s.setDownload d dl.done, []) else none
  | .completionBlock _ =>
    if dl.stage = .finished false then
      some ({ s.setDownload d { dl with stage := .finished true } with
        URLOperations := Function.update s.URLOperations dl.url none }, [])
    else none
  | _ => none

/-- The main queue runs nothing else while it adds handlers. -/
def onMain (s : Images) (r : Option ImageOutcome) : Option ImageOutcome :=
  if s.adding.isSome then none else r

def step (s : Images) (e : ImageEvent) : Option ImageOutcome :=
  match e with
  | .setImageWithURL v url fresh =>
    s.onMain <| (s.views v).bind fun w =>
      if (s.operations fresh).isSome then none else some (s.setImageWithURL v w url fresh)
  | .setImage v x =>
    s.onMain <| (s.views v).map fun w => (s.setView v (some { w with image := some x }), [])
  | .release v => s.onMain <| (s.views v).map fun _ => (s.setView v none, [])
  | .main fresh =>
    s.onMain <| s.mainQueue.head?.bind fun b =>
      if (s.downloads fresh).isSome then none
      else some ({ s with mainQueue := s.mainQueue.tail }.runBlock fresh b)
  | .addHandlers => s.adding.map fun x => (s.addHandlers x.1 x.2, [])
  | .io => s.ioQueue.head?.map fun j => ({ s with ioQueue := s.ioQueue.tail }.runJob j, [])
  | .start d | .didComplete d _ | .report d | .done d | .completionBlock d =>
    (s.downloads d).bind fun dl => s.advance d dl e
  | .evict url => some ({ s with memCache := Function.update s.memCache url none }, [])
  | .expire url => some ({ s with disk := Function.update s.disk url none }, [])

def machine : Machine Images ImageEvent ImageOutput := ⟨step⟩

/-! What one step can do. -/

inductive Advances (s : Images) (d : DownloadId) (dl : DownloaderOperation) :
    ImageEvent → ImageOutcome → Prop
  | start (hst : dl.stage = .waiting) : Advances s d dl (.start d)
      (s.setDownload d dl.start, if dl.cancelled then [] else [.resumed dl.url])
  | didComplete (res : SessionResult) (hst : dl.stage = .executing) :
      Advances s d dl (.didComplete d res) (s.setDownload d (dl.didComplete res), [])
  | report (res : LoadResult) (hst : dl.stage = .answered res) : Advances s d dl (.report d)
      ({ s.setDownload d { dl with stage := .reported } with
        mainQueue := s.mainQueue ++ [.downloaded dl.callbackBlocks res] }, [])
  | done (hst : dl.stage = .reported) : Advances s d dl (.done d) (s.setDownload d dl.done, [])
  | completionBlock (hst : dl.stage = .finished false) : Advances s d dl (.completionBlock d)
      ({ s.setDownload d { dl with stage := .finished true } with
        URLOperations := Function.update s.URLOperations dl.url none }, [])

inductive Does (s : Images) : ImageEvent → ImageOutcome → Prop
  | setImageWithURL {v : ViewId} {url : Option String} {o : OperationId} {w : ImageView}
      (ha : s.adding = none) (hw : s.views v = some w) (ho : s.operations o = none) :
      Does s (.setImageWithURL v url o) (s.setImageWithURL v w url o)
  | setImage {v : ViewId} {x : UIImage} {w : ImageView} (hw : s.views v = some w) :
      Does s (.setImage v x) (s.setView v (some { w with image := some x }), [])
  | release {v : ViewId} : Does s (.release v) (s.setView v none, [])
  | queried {fresh : DownloadId} {o : OperationId} {image : Option UIImage} {bs : List Block}
      (ha : s.adding = none) (hb : s.mainQueue = .queried o image :: bs)
      (hf : s.downloads fresh = none) :
      Does s (.main fresh) ({ s with mainQueue := bs }.queried o image fresh)
  | downloaded {fresh : DownloadId} {l : List OperationId} {res : LoadResult} {bs : List Block}
      (hb : s.mainQueue = .downloaded l res :: bs) :
      Does s (.main fresh)
        (Sequence.runAll (fun _ : Images => false) (downloaded res) { s with mainQueue := bs } l)
  | addHandlers {o : OperationId} {d : DownloadId} (ha : s.adding = some (o, d)) :
      Does s .addHandlers (s.addHandlers o d, [])
  | io {j : Job} {js : List Job} (hj : s.ioQueue = j :: js) :
      Does s .io ({ s with ioQueue := js }.runJob j, [])
  | advance {d : DownloadId} {dl : DownloaderOperation} {e : ImageEvent} {r : ImageOutcome}
      (hd : s.downloads d = some dl) (hr : Advances s d dl e r) : Does s e r
  | evict {url : String} :
      Does s (.evict url) ({ s with memCache := Function.update s.memCache url none }, [])
  | expire {url : String} :
      Does s (.expire url) ({ s with disk := Function.update s.disk url none }, [])

theorem onMain_eq_some {s : Images} {r : Option ImageOutcome} {r' : ImageOutcome} :
    s.onMain r = some r' ↔ s.adding = none ∧ r = some r' := by
  unfold onMain
  cases s.adding <;> simp

theorem step_does {s : Images} {e : ImageEvent} {r : ImageOutcome} (hr : s.step e = some r) :
    Does s e r := by
  cases e with
  | setImageWithURL v url o =>
    obtain ⟨ha, hr⟩ := onMain_eq_some.mp hr
    obtain ⟨w, hw, hr⟩ := Option.bind_eq_some_iff.mp hr
    simp only [Option.ite_none_left_eq_some, Option.some.injEq] at hr
    obtain ⟨ho, rfl⟩ := hr
    exact .setImageWithURL ha hw (by simpa using ho)
  | setImage v x =>
    obtain ⟨-, hr⟩ := onMain_eq_some.mp hr
    obtain ⟨w, hw, rfl⟩ := Option.map_eq_some_iff.mp hr
    exact .setImage hw
  | release v =>
    obtain ⟨-, hr⟩ := onMain_eq_some.mp hr
    obtain ⟨w, -, rfl⟩ := Option.map_eq_some_iff.mp hr
    exact .release
  | main fresh =>
    obtain ⟨ha, hr⟩ := onMain_eq_some.mp hr
    obtain ⟨b, hb, hr⟩ := Option.bind_eq_some_iff.mp hr
    simp only [Option.ite_none_left_eq_some, Option.some.injEq] at hr
    obtain ⟨hf, rfl⟩ := hr
    have hq := List.eq_cons_of_mem_head? hb
    cases b with
    | queried o image => exact .queried ha hq (by simpa using hf)
    | downloaded l res => exact .downloaded hq
  | addHandlers =>
    obtain ⟨⟨o, d⟩, ha, rfl⟩ := Option.map_eq_some_iff.mp hr
    exact .addHandlers ha
  | io =>
    obtain ⟨j, hj, rfl⟩ := Option.map_eq_some_iff.mp hr
    exact .io (List.eq_cons_of_mem_head? hj)
  | evict url =>
    obtain rfl := Option.some.inj hr
    exact .evict
  | expire url =>
    obtain rfl := Option.some.inj hr
    exact .expire
  | start d | didComplete d _ | done d | completionBlock d =>
    obtain ⟨dl, hd, hr⟩ := Option.bind_eq_some_iff.mp hr
    simp only [advance, Option.ite_none_right_eq_some, Option.some.injEq] at hr
    obtain ⟨hst, rfl⟩ := hr
    first
    | exact .advance hd (.start hst)
    | exact .advance hd (.didComplete _ hst)
    | exact .advance hd (.done hst)
    | exact .advance hd (.completionBlock hst)
  | report d =>
    obtain ⟨dl, hd, hr⟩ := Option.bind_eq_some_iff.mp hr
    simp only [advance] at hr
    split at hr
    · next res hst =>
      obtain rfl := Option.some.inj hr
      exact .advance hd (.report res hst)
    · cases hr

/-- A fresh process. The disk holds what earlier ones left there. -/
structure Launch (s : Images) : Prop where
  views : ∀ v, s.views v = some ⟨none, none, none⟩
  operations : ∀ o, s.operations o = none
  runningOperations : s.runningOperations = []
  failedURLs : s.failedURLs = []
  memCache : ∀ url, s.memCache url = none
  ioQueue : s.ioQueue = []
  mainQueue : s.mainQueue = []
  adding : s.adding = none
  URLOperations : ∀ url, s.URLOperations url = none
  downloads : ∀ d, s.downloads d = none

def launch (disk : String → Option UIImage) : Images where
  views _ := some ⟨none, none, none⟩
  operations _ := none
  runningOperations := []
  failedURLs := []
  memCache _ := none
  disk := disk
  ioQueue := []
  mainQueue := []
  adding := none
  URLOperations _ := none
  downloads _ := none

theorem launch_launch (disk : String → Option UIImage) : Launch (launch disk) :=
  ⟨fun _ => rfl, fun _ => rfl, rfl, rfl, fun _ => rfl, rfl, rfl, rfl, fun _ => rfl, fun _ => rfl⟩

end Images

abbrev ImageMove := Move Images ImageEvent ImageOutput

abbrev ImageHistory := List ImageMove

end Mioto
