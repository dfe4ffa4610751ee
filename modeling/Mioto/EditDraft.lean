import Mioto.Loads
import Mioto.Overwrite
import Mioto.StatusCallbacks
import Mioto.UpdateFrame

/-! What the Edit screen saves. Its text fields hold what the user enters, and the arrival
of the fetch that the screen started overwrites all of them. -/

namespace Mioto

inductive EditField
  | mName | mDob | mGender | mPhoneNumber
  deriving DecidableEq, Repr

instance : Fintype EditField where
  elems := ⟨([.mName, .mDob, .mGender, .mPhoneNumber] : List EditField), by decide⟩
  complete := by intro f; cases f <;> decide

def UpdateArguments.text (a : UpdateArguments) : EditField → String
  | .mName => a.name
  | .mDob => a.dob
  | .mGender => a.gender
  | .mPhoneNumber => a.number

namespace EditProfileScreen

def text (sc : EditProfileScreen) : EditField → String
  | .mName => sc.mName
  | .mDob => sc.mDob
  | .mGender => sc.mGender
  | .mPhoneNumber => sc.mPhoneNumber

/-- What a tap on the update button passes on. -/
def arguments (sc : EditProfileScreen) : UpdateArguments :=
  ⟨sc.mName, sc.mDob, sc.mGender, sc.mPhoneNumber⟩

def set (sc : EditProfileScreen) (x : String) : EditField → EditProfileScreen
  | .mName => { sc with mName := x }
  | .mDob => { sc with mDob := x }
  | .mGender => { sc with mGender := x }
  | .mPhoneNumber => { sc with mPhoneNumber := x }

theorem text_arguments (sc : EditProfileScreen) (f : EditField) :
    sc.arguments.text f = sc.text f := by
  cases f <;> rfl

theorem text_set (sc : EditProfileScreen) (x : String) (f f' : EditField) :
    (sc.set x f).text f' = if f = f' then x else sc.text f' := by
  cases f <;> cases f' <;> rfl

end EditProfileScreen

/-- What the user's record has for a field. Nothing stored shows as the empty text. -/
def stored (d : Dict) : EditField → String
  | .mName => (d .mUserName).getD ""
  | .mDob => (d .mUserDateOfBirth).getD ""
  | .mGender => (d .mUserGender).getD ""
  | .mPhoneNumber => (d .mUserPhone).getD ""

namespace EditProfileScreen

/-- What the fields hold once the cache has been shown. -/
def showing (user : Option Profile) : EditProfileScreen where
  mName := (user.bind Profile.mUserName).getD ""
  mPhoneNumber := (user.bind Profile.mUserPhone).getD ""
  mDob := (user.bind Profile.mUserDateOfBirth).getD ""
  mGender := (user.bind Profile.mUserGender).getD ""

theorem text_showing (d : Dict) (f : EditField) :
    (showing (some (transformUser d))).text f = stored d f := by
  cases f <;> rfl

end EditProfileScreen

/-- The field of an Edit screen that a touch sets, and to what. -/
def Touch.edits : Touch → Option (EditField × String)
  | .typed .mName x => some (.mName, x)
  | .typed .mPhoneNumber x => some (.mPhoneNumber, x)
  | .typed .mDob x => some (.mDob, x)
  | .typed .mGender x => some (.mGender, x)
  | .dateChanged x => some (.mDob, x)
  | .didSelectedRow second => some (.mGender, EditProfileScreen.genderArray second)
  | _ => none

theorem touched_edits {sc : EditProfileScreen} {touch : Touch} {f : EditField} {x : String}
    (h : touch.edits = some (f, x)) :
    (Screen.edit sc).touched touch = some [.become (.edit (sc.set x f))] := by
  unfold Touch.edits at h
  split at h <;> cases h <;> rfl

def Act.edits (i : ScreenId) : Act → Option (EditField × String)
  | .touch j t => if j = i then t.edits else none
  | _ => none

namespace App

/-- What an act enters in the field `f` of the screen `i`. -/
def entry (i : ScreenId) (f : EditField) (m : AppMove) : Option String :=
  ((m.event.act.edits i).filter fun x => x.1 = f).map Prod.snd

/-- The fetch of the screen `i` arrives with a record. -/
def arrives (i : ScreenId) (m : AppMove) : Bool :=
  match m.event.act with
  | .complete k => (m.before.service.replies[k]?).any fun w =>
      w.ticket = some (.fetchData, i) && w.reply.fetchedRecord.isSome
  | _ => false

/-- The user edits a field of the screen `i`, or the fetch of that screen goes on. -/
def drafts (i : ScreenId) (m : AppMove) : Bool :=
  match m.event.act with
  | .answer k _ => (m.before.service.pending[k]?).bind Pending.ticket = some (.fetchData, i)
  | .complete k => (m.before.service.replies[k]?).bind Waiting.ticket = some (.fetchData, i)
  | a => (a.edits i).isSome

/-- From the opening of the Edit screen `i` by `u`, whose record is `d`, to a tap on the
update button, with nothing but edits and the fetch of that screen in between. -/
structure EditSession (i : ScreenId) (u : Uid) (d : Dict) (opened : AppMove) (draft : AppHistory)
    (tap : AppMove) : Prop where
  opens : ∃ j, opened.event.act = .touch j .editProfileButton
  loaded : (i, Kind.edit) ∈ loads opened.out
  user : opened.before.service.currentUser = some u
  record : opened.before.service.users u = .dict d
  drafts : ∀ m ∈ draft, drafts i m
  taps : tap.event.act = .touch i .updateData

/-- For each field: if it was edited, no record arrived after the last edit, or it held the
same text; if it was not, a record has arrived, or it holds the empty text. -/
def KeepsDraft (i : ScreenId) (d : Dict) (draft : AppHistory) : Prop :=
  ∀ f, (∀ x ∈ draft.findSome? (entry i f),
      Overwrite.loadedSince (entry i f) (arrives i) draft → x = stored d f) ∧
    (draft.findSome? (entry i f) = none →
      Overwrite.loadedSince (entry i f) (arrives i) draft ∨ "" = stored d f)

instance (i : ScreenId) (d : Dict) (draft : AppHistory) : Decidable (KeepsDraft i d draft) :=
  inferInstanceAs (Decidable (∀ f, (∀ x ∈ draft.findSome? (entry i f),
      Overwrite.loadedSince (entry i f) (arrives i) draft → x = stored d f) ∧
    (draft.findSome? (entry i f) = none →
      Overwrite.loadedSince (entry i f) (arrives i) draft ∨ "" = stored d f)))

/-! ### While the user drafts -/

/-- The Edit screen `i` shows `sc` and listens; its fetch will find `d`. -/
structure Drafting (i : ScreenId) (u : Uid) (d : Dict) (sc : EditProfileScreen) (s : App) :
    Prop where
  screens : s.screens i = some (.edit sc)
  listens : s.fireBaseListener = some i
  user : s.service.currentUser = some u
  record : s.service.users u = .dict d
  pending : ∀ p ∈ s.service.pending, p.ticket = some (.fetchData, i) → p.request = .fetch u
  replies : ∀ w ∈ s.service.replies, w.ticket = some (.fetchData, i) →
    w.reply = .fetched u (.dict d) ∨ w.reply = .fetchCancelled u

/-- What the screen shows after an event. -/
def shown (i : ScreenId) (d : Dict) (m : AppMove) (sc : EditProfileScreen) :
    EditProfileScreen :=
  match m.event.act.edits i with
  | some x => sc.set x.2 x.1
  | none =>
    if arrives i m then .showing (some (transformUser d)) else sc

theorem shown_text (i : ScreenId) (d : Dict) (m : AppMove) (sc : EditProfileScreen)
    (f : EditField) : (shown i d m sc).text f =
      (entry i f m).getD (if arrives i m then stored d f else sc.text f) := by
  unfold shown entry
  have hv : (m.event.act.edits i).isSome → arrives i m = false := by
    unfold arrives
    cases m.event.act <;> simp [Act.edits]
  cases he : m.event.act.edits i with
  | none =>
    cases arrives i m
    · rfl
    · exact EditProfileScreen.text_showing d f
  | some x =>
    simp only [EditProfileScreen.text_set, hv (by rw [he]; rfl)]
    by_cases hf : x.1 = f <;> simp [Option.filter, hf]

theorem drafting_touch {i : ScreenId} {u : Uid} {d : Dict} {sc : EditProfileScreen} {m : AppMove}
    (hm : machine.Fires m) (h : Drafting i u d sc m.before) {touch : Touch} {x : EditField × String}
    (ha : m.event.act = .touch i touch) (hx : touch.edits = some x) :
    Drafting i u d (sc.set x.2 x.1) m.after := by
  obtain ⟨sc', cs, -, hsc, hcs, he⟩ := (fires_taken hm).touch ha
  obtain rfl := Option.some.inj (h.screens.symm.trans hsc)
  obtain rfl := Option.some.inj ((touched_edits (f := x.1) (x := x.2) hx).symm.trans hcs)
  rw [runAll, Sequence.runAll_singleton, perform_become, settle_of_silent rfl] at he
  rw [show m.after = _ from congrArg Prod.fst he]
  exact { h with screens := Function.update_self .. }

theorem drafting_answer {i : ScreenId} {u : Uid} {d : Dict} {sc : EditProfileScreen} {m : AppMove}
    (hm : machine.Fires m) (h : Drafting i u d sc m.before) {k : Nat} {q : Reply}
    (ha : m.event.act = .answer k q) {p : Pending} (hp : m.before.service.pending[k]? = some p)
    (hpt : p.ticket = some (.fetchData, i)) : Drafting i u d sc m.after := by
  have hsilent : m.event.act.silent = some (.answer k q) := by
    rw [ha]
    rfl
  obtain ⟨rr, hstep, he⟩ := (fires_taken hm).silent hsilent
  obtain ⟨-, p', hp', hans, hans'⟩ := Service.step_answer hstep
  obtain rfl := Option.some.inj (hp.symm.trans hp')
  have hreq := h.pending p (List.mem_of_getElem? hp) hpt
  rw [hreq] at hans hans'
  obtain ⟨-, rfl⟩ | ⟨hn, -⟩ := hans'
  swap
  · cases hn
  rw [serve_of_step (s := m.before.reserve m.event) hstep] at he
  rw [show m.after = _ from congrArg Prod.fst he]
  -- what a fetch of the record may come back with
  have hq : q = .fetched u (.dict d) ∨ q = .fetchCancelled u := by
    cases q <;> simp [Service.answers] at hans
    · obtain ⟨rfl, rfl⟩ := hans
      exact .inl (by rw [h.record])
    · exact .inr (by rw [hans])
  have hby : Service.signedInBy q = none := by rcases hq with rfl | rfl <;> rfl
  refine { h with user := ?_, pending := fun p' hp' => ?_, replies := fun w hw => ?_ }
  · exact (congrArg (Option.or · _) hby).trans h.user
  · exact h.pending p' (List.mem_of_mem_eraseIdx hp')
  · rcases List.mem_append.mp hw with hw | hw
    · exact h.replies w hw
    · obtain rfl := List.mem_singleton.mp hw
      exact fun _ => hq

theorem Drafting.deliver {i : ScreenId} {u : Uid} {d : Dict} {sc : EditProfileScreen} {s : App}
    (h : Drafting i u d sc s) (t : String) (fresh : List ScreenId) (status : Int) :
    Drafting i u d (if status = 0 then sc else .showing s.service.newUser)
      (deliver t fresh s (.profileDataRecieved status)).1 := by
  have hl : s.listening (.profileDataRecieved status) = some (i, .edit sc) :=
    listening_eq_some.mpr ⟨h.listens, h.screens⟩
  simp only [App.deliver, hl, Screen.receive, EditProfileScreen.profileDataRecieved]
  split_ifs
  · exact h
  · simp only [runAll, Sequence.runAll_singleton, perform_become]
    exact { h with screens := Function.update_self .. }

theorem drafting_complete {i : ScreenId} {u : Uid} {d : Dict} {sc : EditProfileScreen} {m : AppMove}
    (hm : machine.Fires m) (h : Drafting i u d sc m.before) {k : Nat}
    (ha : m.event.act = .complete k) {w : Waiting} (hw : m.before.service.replies[k]? = some w)
    (hwt : w.ticket = some (.fetchData, i)) :
    Drafting i u d (shown i d m sc) m.after := by
  have htaken := fires_taken hm
  have hreport : m.event.act.report m.event.stringTime =
      some (.complete k m.event.stringTime) := by
    rw [ha]
    rfl
  obtain ⟨rr, hstep, he⟩ := htaken.report hreport
  obtain ⟨-, w', hw', rfl⟩ := Service.step_complete hstep
  obtain rfl := Option.some.inj (hw.symm.trans hw')
  have hnone : m.event.act.edits i = none := by rw [ha]; rfl
  -- the block itself leaves the screen and the record alone
  have hblock : ∀ sv : Service, sv.currentUser = m.before.service.currentUser →
      sv.users = m.before.service.users → sv.pending = m.before.service.pending →
      sv.replies = m.before.service.replies.eraseIdx k →
      Drafting i u d sc { m.before.reserve m.event with service := sv } := by
    intro sv h1 h2 h3 h4
    refine ⟨h.screens, h.listens, h1.trans h.user, by rw [h2]; exact h.record, ?_, ?_⟩
    · exact fun p hp => h.pending p (h3 ▸ hp)
    · exact fun w hw => h.replies w (List.mem_of_mem_eraseIdx (h4 ▸ hw))
  rcases h.replies w (List.mem_of_getElem? hw) hwt with hq | hq
  · have harr : arrives i m := by simp [arrives, ha, hw, hwt, hq, Reply.fetchedRecord]
    have hc : m.before.service.complete k m.event.stringTime w =
        ({ m.before.service with
          replies := m.before.service.replies.eraseIdx k
          newUser := some (transformUser d) }, [.send (.profileDataRecieved 1)]) := by
      simp [Service.complete, hq, Service.completion, Service.send]
    rw [settle_serve_of_some (s := m.before.reserve m.event) (m := .profileDataRecieved 1)
      htaken.raised hstep (by simp [Service.announced, reserve, hw, hq, Reply.announced]), hc] at he
    rw [show m.after = _ from congrArg Prod.fst he, shown, hnone]
    simp only [harr, if_true]
    exact (hblock { m.before.service with
      replies := m.before.service.replies.eraseIdx k
      newUser := some (transformUser d) } rfl rfl rfl rfl).deliver _ _ 1
  · have harr : arrives i m = false := by simp [arrives, ha, hw, hwt, hq, Reply.fetchedRecord]
    have hc : m.before.service.complete k m.event.stringTime w =
        ({ m.before.service with replies := m.before.service.replies.eraseIdx k },
          [.send (.profileDataRecieved 0)]) := by
      simp [Service.complete, hq, Service.completion, Service.send]
    rw [settle_serve_of_some (s := m.before.reserve m.event) (m := .profileDataRecieved 0)
      htaken.raised hstep (by simp [Service.announced, reserve, hw, hq, Reply.announced]), hc] at he
    rw [show m.after = _ from congrArg Prod.fst he, shown, hnone]
    simp only [harr, Bool.false_eq_true, if_false]
    exact (hblock { m.before.service with
      replies := m.before.service.replies.eraseIdx k } rfl rfl rfl rfl).deliver _ _ 0

theorem drafting_step {i : ScreenId} {u : Uid} {d : Dict} {sc : EditProfileScreen} {m : AppMove}
    (hm : machine.Fires m) (h : Drafting i u d sc m.before) (hd : drafts i m) :
    Drafting i u d (shown i d m sc) m.after := by
  unfold drafts at hd
  cases ha : m.event.act with
  | answer k q =>
    simp only [ha, decide_eq_true_eq] at hd
    obtain ⟨p, hp, hpt⟩ := Option.bind_eq_some_iff.mp hd
    have hs : shown i d m sc = sc := by simp [shown, ha, Act.edits, arrives]
    rw [hs]
    exact drafting_answer hm h ha hp hpt
  | complete k =>
    simp only [ha, decide_eq_true_eq] at hd
    obtain ⟨w, hw, hwt⟩ := Option.bind_eq_some_iff.mp hd
    exact drafting_complete hm h ha hw hwt
  | touch j touch =>
    simp only [ha, Act.edits] at hd
    obtain ⟨x, hx⟩ := Option.isSome_iff_exists.mp hd
    split_ifs at hx with hj
    subst hj
    have hs : shown j d m sc = sc.set x.2 x.1 := by simp [shown, ha, Act.edits, hx]
    rw [hs]
    exact drafting_touch hm h ha hx
  | _ => simp [ha, Act.edits] at hd

/-- The text of each field is a register that entries set and the fetch overwrites. -/
theorem drafting_run {i : ScreenId} {u : Uid} {d : Dict} {s₁ s : App} {draft : AppHistory}
    (h : Drafting i u d .loaded s₁) (hr : machine.Run s₁ draft s) (hd : ∀ m ∈ draft, drafts i m) :
    ∃ sc, Drafting i u d sc s ∧
      ∀ f, sc.text f = Overwrite.value (entry i f) (arrives i) "" (stored d f) draft := by
  induction hr with
  | nil => exact ⟨.loaded, h, fun f => by cases f <;> rfl⟩
  | @cons draft m _ hm ih =>
    obtain ⟨sc, hsc, htext⟩ := ih fun m hm => hd m (List.mem_cons_of_mem _ hm)
    refine ⟨shown i d m sc, drafting_step hm hsc (hd m List.mem_cons_self), fun f => ?_⟩
    rw [shown_text, htext]
    rfl

/-! ### The session -/

theorem touched_editProfileButton {sc : Screen} {cs : List Command}
    (h : sc.touched .editProfileButton = some cs) : cs = [.push .edit] := by
  cases Screen.touched_cases h
  rfl

theorem drafting_opened {s₀ : App} {older : AppHistory} {m : AppMove} (hl : Launch s₀)
    (hr : machine.Run s₀ older m.before) (hm : machine.Fires m) {i j : ScreenId} {u : Uid}
    {d : Dict} (ha : m.event.act = .touch j .editProfileButton)
    (hi : (i, Kind.edit) ∈ loads m.out) (hu : m.before.service.currentUser = some u)
    (hd : m.before.service.users u = .dict d) : Drafting i u d .loaded m.after := by
  have htaken := fires_taken hm
  obtain ⟨sc, cs, -, hcs, he⟩ := htaken.touch_of_ne ha (by simp)
  obtain rfl := touched_editProfileButton hcs
  rw [runAll, Sequence.runAll_singleton, perform_push] at he
  split_ifs at he with hj
  · have hc : ({ m.before.reserve m.event with
        stack := m.event.fresh :: m.before.stack } : App).crashed = false := htaken.running
    have hload : (m.after, m.out) = _ :=
      he.trans (load_edit (t := m.event.stringTime) hc [m.event.fresh'] m.event.fresh)
    have hfetch : m.before.service.fetchData m.event.fresh =
        (m.before.service.request m.event.fresh (.fetch u), []) := by
      simp [Service.fetchData, hu]
    have hafter := congrArg Prod.fst hload
    obtain rfl : i = m.event.fresh := by
      rw [show m.out = _ from congrArg Prod.snd hload] at hi
      simpa [loads, Output.load] using hi
    -- nothing of this screen was under way before
    have hnew : m.before.service.underWay (· == (.fetchData, m.event.fresh)) = 0 :=
      (counts_of_not_used hl hr (x := (.fetchData, m.event.fresh))
        (not_mem_used_of_fresh (s := m.before) hm List.mem_cons_self)).1
    simp only [Service.underWay, Nat.add_eq_zero_iff, List.countP_eq_zero] at hnew
    rw [show m.after = _ from hafter,
      show (m.before.reserve m.event).service.fetchData m.event.fresh = _ from hfetch]
    refine ⟨Function.update_self .., rfl, hu, hd, ?_, ?_⟩
    · intro p hp hpt
      rcases List.mem_append.mp hp with hp | hp
      · exact absurd (by simp [hpt]) (hnew.1 p hp)
      · rw [List.mem_singleton.mp hp]
    · exact fun w hw hwt => absurd (by simp [hwt]) (hnew.2 w hw)
  · rw [show m.out = _ from congrArg Prod.snd he] at hi
    cases hi

/-- A tap on the update button passes the text of the four fields. -/
theorem passed_of_tap {i : ScreenId} {u : Uid} {d : Dict} {sc : EditProfileScreen} {m : AppMove}
    (hm : machine.Fires m) (h : Drafting i u d sc m.before)
    (ha : m.event.act = .touch i .updateData) :
    (serviceMoves m.out).filterMap (·.event.updateArguments) = [sc.arguments] := by
  have htaken := fires_taken hm
  obtain ⟨sc', cs, hsc, hcs, he⟩ := htaken.touch_of_ne ha (by simp)
  obtain rfl := Option.some.inj (h.screens.symm.trans hsc)
  obtain rfl : sc.updateData = cs := Option.some.inj hcs
  -- the Profile screen that is pushed next updates nothing
  have hpush : ∀ s', (serviceMoves (runAll (perform m.event.stringTime
      [m.event.fresh, m.event.fresh'] i) s' [.push .profile]).2).filterMap
        (·.event.updateArguments) = [] := by
    intro s'
    refine List.filterMap_eq_nil_iff.mpr fun sm hsm => ?_
    obtain ⟨j, c, hev, hcall⟩ := call_of_performAll sm hsm
    rw [hev]
    rcases hcall with ⟨-, hmem⟩ | ⟨-, rfl | rfl⟩
    · simp at hmem
    · rfl
    · rfl
  rw [EditProfileScreen.updateData, runAll, Sequence.runAll_cons, perform_call,
    serve_call htaken.running] at he
  rw [show m.out = _ from congrArg Prod.snd he, Sequence.andThen]
  split_ifs
  · rfl
  · rw [serviceMoves_append, List.filterMap_append]
    exact congrArg ([sc.arguments] ++ ·) (hpush _)

/-- In every Edit session of every run, the update passes the last entry of each edited
field and the stored value of each other one exactly when the session keeps the draft. -/
theorem update_passes_draft_iff {s₀ s : App} {older draft : AppHistory} {opened tap : AppMove}
    (hl : Launch s₀) (hr : machine.Run s₀ (tap :: (draft ++ opened :: older)) s) {i : ScreenId}
    {u : Uid} {d : Dict} (hs : EditSession i u d opened draft tap) :
    ∃ passed, (serviceMoves tap.out).filterMap (·.event.updateArguments) = [passed] ∧
      ((∀ f, passed.text f = (draft.findSome? (entry i f)).getD (stored d f)) ↔
        KeepsDraft i d draft) := by
  obtain ⟨j, hj⟩ := hs.opens
  have htap : machine.Run s₀ (draft ++ opened :: older) tap.before := hr.tail
  have hopened : machine.Run s₀ older opened.before := htap.before rfl
  have hfires := htap.fires opened (by simp)
  have hstart := drafting_opened hl hopened hfires hj hs.loaded hs.user hs.record
  obtain ⟨sc, hsc, htext⟩ := drafting_run hstart (htap.after rfl) hs.drafts
  refine ⟨_, passed_of_tap (hr.fires tap List.mem_cons_self) hsc hs.taps, ?_⟩
  refine forall_congr' fun f => ?_
  rw [EditProfileScreen.text_arguments, htext, Overwrite.value_eq_entry_iff]
  rfl

def editSession (draft : List Act) : List Event :=
  script 0 ([.launch, .answer 0 (.fetched "u" (.dict (Service.signupRecord "u"))), .complete 0,
    .touch 1 .editProfileButton] ++ draft ++ [.touch 6 .updateData])

def fetchThenEdit : List Act :=
  [.answer 0 (.fetched "u" (.dict (Service.signupRecord "u"))), .complete 0,
    .touch 6 (.typed .mName "new name")]

theorem edit_after_fetch_passed :
    let r := (machine.exec [] (start (Service.launch (some "u") ["u"]))
      (editSession fetchThenEdit)).get (by decide)
    ∃ opened tap older draft, r.1 = tap :: (draft ++ opened :: older) ∧
      EditSession 6 "u" (Service.signupRecord "u") opened draft tap ∧
      ∃ passed, (serviceMoves tap.out).filterMap (·.event.updateArguments) = [passed] ∧
        ∀ f, passed.text f =
          (draft.findSome? (entry 6 f)).getD (stored (Service.signupRecord "u") f) := by
  intro r
  have hr : machine.Run (start (Service.launch (some "u") ["u"])) r.1 r.2 := Machine.exec_run _
  have hsplit : r.1 = r.1[0] :: ((r.1.drop 1).take 3 ++ r.1[4] :: r.1.drop 5) := rfl
  have hs : EditSession 6 "u" (Service.signupRecord "u") r.1[4] ((r.1.drop 1).take 3) r.1[0] :=
    ⟨⟨1, rfl⟩, by decide, by decide, by decide, by decide, rfl⟩
  obtain ⟨passed, hp, hiff⟩ := update_passes_draft_iff (start_launch (some "u") ["u"])
    (hsplit ▸ hr) hs
  exact ⟨_, _, _, _, hsplit, hs, passed, hp, hiff.mpr (by decide)⟩

def editThenFetch : List Act :=
  [.touch 6 (.typed .mName "new name"),
    .answer 0 (.fetched "u" (.dict (Service.signupRecord "u"))), .complete 0]

theorem fetch_discards_entry :
    let r := (machine.exec [] (start (Service.launch (some "u") ["u"]))
      (editSession editThenFetch)).get (by decide)
    machine.Run (start (Service.launch (some "u") ["u"])) r.1 r.2 ∧
    ∃ opened tap older draft, r.1 = tap :: (draft ++ opened :: older) ∧
      EditSession 6 "u" (Service.signupRecord "u") opened draft tap ∧
      ∃ passed, (serviceMoves tap.out).filterMap (·.event.updateArguments) = [passed] ∧
        ¬ ∀ f, passed.text f =
          (draft.findSome? (entry 6 f)).getD (stored (Service.signupRecord "u") f) := by
  intro r
  have hr : machine.Run (start (Service.launch (some "u") ["u"])) r.1 r.2 := Machine.exec_run _
  have hsplit : r.1 = r.1[0] :: ((r.1.drop 1).take 3 ++ r.1[4] :: r.1.drop 5) := rfl
  have hs : EditSession 6 "u" (Service.signupRecord "u") r.1[4] ((r.1.drop 1).take 3) r.1[0] :=
    ⟨⟨1, rfl⟩, by decide, by decide, by decide, by decide, rfl⟩
  exact ⟨hr, _, _, _, _, hsplit, hs, ⟨"u", Service.unchosen, " ", Service.unchosen⟩,
    by decide, by decide⟩

end App

end Mioto
