import Mioto.Phones
import Mioto.Provenance
import Mioto.Screenwise

/-! What the fields of the database may hold. The screens send what their pickers and the code's
own constants give, and copy the rest from records that were read before. -/

namespace Mioto

def genders : List String := ["", " ", Service.unchosen, "Nam", "Nữ"]

/-- The default avatar, a Facebook picture, or an object of the storage. -/
def IsImage (x : String) : Prop :=
  x = SignupScreen.defaultAvatar ∨ (∃ photo, x = photo ++ "?type=large") ∨
    ∃ u token, x = Service.storageURL u token

/-- The texts that come from outside the code: `picked` are the strings that the date picker's
formatter makes, `today` those of the current date, and `typed` what the user types or pastes
into a text field. -/
structure Inputs where
  picked : String → Prop
  today : String → Prop
  typed : TextField → String → Prop

section

variable (ins : Inputs)

def ValueFormed : Key → String → Prop
  | .mUserGender, x => x ∈ genders ∨ ins.typed .mGender x
  | .mUserDateOfBirth, x =>
    x = "" ∨ x = Service.unchosen ∨ ins.picked x ∨ ins.typed .mDob x
  | .mUserJoinedDate, x => ins.today x
  | .mUserImgUrl, x => IsImage x
  | .mFBLinking, x | .mEmailLinking, x => x = "true" ∨ x = "false"
  | _, _ => True

def Formed (d : Dict) : Prop := ∀ k, ∀ x ∈ d k, ValueFormed ins k x

/-- What `Users/u` may hold. -/
structure NodeFormed (u : Uid) (n : Node) : Prop where
  notLeaf : ∀ x, n ≠ .leaf x
  fields : Formed ins n.field
  mUserID : ∀ x ∈ n.field .mUserID, x = u

structure Service.Formed (s : Service) : Prop where
  users : ∀ u, NodeFormed ins u (s.users u)
  replies : ∀ w ∈ s.replies, ∀ x ∈ w.reply.fetchedRecord, Mioto.Formed ins x.2
  newUser : ∀ p ∈ s.newUser, Mioto.Formed ins p.property

def Screen.Formed : Screen → Prop
  | .edit sc => ValueFormed ins .mUserDateOfBirth sc.mDob ∧
      ValueFormed ins .mUserGender sc.mGender
  | _ => True

def Call.Formed : Call → Prop
  | .saveDataWithEmail email name dob gender img number fbLink emailLink => ∀ u t, ins.today t →
      Mioto.Formed ins
        (Service.savedRecord u t email name dob gender img number fbLink emailLink)
  | .updateDataWithName _ dob gender _ _ => ValueFormed ins .mUserDateOfBirth dob ∧
      ValueFormed ins .mUserGender gender
  | _ => True

def Touch.Formed : Touch → Prop
  | .typed field text => ins.typed field text
  | .dateChanged date => ins.picked date
  | _ => True

end

variable {ins : Inputs}

theorem nodeFormed_ofDict {u : Uid} {d : Dict} (h : Formed ins d)
    (hu : ∀ x ∈ d .mUserID, x = u) : NodeFormed ins u (Node.ofDict d) where
  notLeaf x hx := by
    unfold Node.ofDict at hx
    split_ifs at hx
  fields := by rwa [Node.field_ofDict]
  mUserID := by rwa [Node.field_ofDict]

theorem NodeFormed.setField {u : Uid} {n : Node} (h : NodeFormed ins u n) {k : Key}
    {v : Option String} (hk : k ≠ .mUserID) (hv : ∀ x ∈ v, ValueFormed ins k x) :
    NodeFormed ins u (n.setField k v) := by
  refine nodeFormed_ofDict (fun k' x hx => ?_) fun x hx => ?_
  · by_cases hk' : k' = k
    · subst hk'
      exact hv x (by simpa using hx)
    · exact h.fields k' x (by simpa [hk'] using hx)
  · exact h.mUserID x (by simpa [hk.symm] using hx)

namespace Service

/-! ### One lemma for each kind of change -/

theorem Formed.of_same {s s' : Service} (h : Formed ins s) (hu : s'.users = s.users)
    (hr : ∀ w ∈ s'.replies, w ∈ s.replies) (hn : s'.newUser = s.newUser) :
    Formed ins s' :=
  ⟨hu ▸ h.users, fun w hw => h.replies w (hr w hw), hn ▸ h.newUser⟩

theorem Formed.over {s : Service} (h : Formed ins s) {users : Uid → Node}
    (hu : ∀ u, NodeFormed ins u (users u)) : Formed ins (s.over users) :=
  ⟨hu, h.replies, h.newUser⟩

theorem Formed.update {s : Service} (h : Formed ins s) (u : Uid) {n : Node}
    (hn : NodeFormed ins u n) :
    Formed ins { s with users := Function.update s.users u n } where
  users v := by
    by_cases hv : v = u
    · subst hv
      simpa using hn
    · simpa [hv] using h.users v
  replies := h.replies
  newUser := h.newUser

theorem Formed.cache {s : Service} (h : Formed ins s) {d : Dict}
    (hd : Mioto.Formed ins d) :
    Formed ins { s with newUser := some (transformUser d) } where
  users := h.users
  replies := h.replies
  newUser p hp := by
    obtain rfl := Option.mem_some_iff.mp hp
    simpa using hd

theorem formed_updatedRecord {s : Service} (h : Formed ins s) (u : Uid)
    {name dob gender number : String} (hdob : ValueFormed ins .mUserDateOfBirth dob)
    (hgender : ValueFormed ins .mUserGender gender) :
    Mioto.Formed ins (updatedRecord u s.newUser name dob gender number) := by
  have hcopy : ∀ k x, s.newUser.bind (·.property k) = some x → ValueFormed ins k x := by
    intro k x hx
    obtain ⟨p, hp, hpx⟩ := Option.bind_eq_some_iff.mp hx
    exact h.newUser p hp k x hpx
  intro k x hx
  cases k with
  | mUserDateOfBirth =>
    obtain rfl := Option.some.inj hx
    exact hdob
  | mUserGender =>
    obtain rfl := Option.some.inj hx
    exact hgender
  | mUserImgUrl | mUserJoinedDate | mFBLinking | mEmailLinking => exact hcopy _ x hx
  | mUserID | mUserName | mUserPhone | mUserEmail => trivial

theorem Called.formed {s : Service} (h : Formed ins s) {t : String} (ht : ins.today t)
    {i : ScreenId} {c : Call} (hc : c.Formed ins) {r : Done} (hr : Called s i t c r) :
    Formed ins r.1 := by
  cases hr with
  | saved => exact h.update _ (nodeFormed_ofDict (hc _ t ht) (by simp [savedRecord]))
  | updated =>
    exact h.update _ (nodeFormed_ofDict (formed_updatedRecord h _ hc.1 hc.2)
      (by simp [updatedRecord]))
  | _ => exact h.of_same rfl (fun _ hw => hw) rfl

theorem formed_flag {s : Service} (h : Formed ins s) (u : Uid) {k : Key}
    (hk : k = .mFBLinking ∨ k = .mEmailLinking) :
    Formed ins (s.setField u k (some "true")).1 := by
  refine h.update u ((h.users u).setField ?_ fun x hx => ?_)
  · rcases hk with rfl | rfl <;> decide
  · obtain rfl := Option.mem_some_iff.mp hx
    rcases hk with rfl | rfl <;> exact .inl rfl

theorem formed_facebookRecord {t : String} (ht : ins.today t) (u : Uid) (user : FIRUser) :
    Mioto.Formed ins (savedRecord u t user.email user.displayName (some unchosen)
      (some unchosen) (user.photoURL.map (· ++ "?type=large")) (some unchosen) (some "true")
      (some "false")) := by
  intro k x hx
  cases k with
  | mUserDateOfBirth =>
    obtain rfl := Option.some.inj hx
    exact .inr (.inl rfl)
  | mUserGender =>
    obtain rfl := Option.some.inj hx
    exact .inl (by simp [genders])
  | mUserImgUrl =>
    obtain ⟨photo, -, rfl⟩ := Option.map_eq_some_iff.mp hx
    exact .inr (.inl ⟨photo, rfl⟩)
  | mUserJoinedDate =>
    obtain rfl := Option.some.inj hx
    exact ht
  | mFBLinking =>
    obtain rfl := Option.some.inj hx
    exact .inl rfl
  | mEmailLinking =>
    obtain rfl := Option.some.inj hx
    exact .inr rfl
  | mUserID | mUserName | mUserPhone | mUserEmail => trivial

theorem Completed.formed {s : Service} (h : Formed ins s) {t : String} (ht : ins.today t)
    {i : ScreenId} {q : Reply} (hq : ∀ x ∈ q.fetchedRecord, Mioto.Formed ins x.2) {r : Done}
    (hr : Completed s t i q r) : Formed ins r.1 := by
  cases hr with
  | fetched d => exact h.cache (hq (_, d) rfl)
  | @imageSaved u token uid =>
    have hurl : Formed ins { s with mDownloadedURL := some (storageURL u token) } :=
      h.of_same rfl (fun _ hw => hw) rfl
    refine hurl.update uid ((h.users uid).setField (by decide) fun x hx => ?_)
    obtain rfl := Option.mem_some_iff.mp hx
    exact .inr (.inr ⟨u, token, rfl⟩)
  | @registered user uid d hu hd hc =>
    exact hd ▸ h.update uid (nodeFormed_ofDict (formed_facebookRecord ht uid user)
      (by simp [savedRecord]))
  | fbLinked => exact formed_flag h _ (.inl rfl)
  | ggLinked => exact formed_flag h _ (.inr rfl)
  | _ => exact h.of_same rfl (fun _ hw => hw) rfl

theorem formed_step {s : Service} (h : Formed ins s) {e : ServiceEvent} {r : Done}
    (hs : s.step e = some r) (he : e.isRemote = false)
    (hc : ∀ i t c, e = .call i t c → ins.today t ∧ c.Formed ins)
    (ht : ∀ k t, e = .complete k t → ins.today t) : Formed ins r.1 := by
  cases (stepped hs).2 with
  | @called i t c r hr => exact hr.formed h (hc i t c rfl).1 (hc i t c rfl).2
  | answered hp ha =>
    refine ⟨h.users, fun w hw x hx => ?_, h.newUser⟩
    rcases List.mem_append.mp hw with hw | hw
    · exact h.replies w hw x hx
    · obtain rfl := List.mem_singleton.mp hw
      have hu := h.users x.1
      rw [answers_fetched ha x hx] at hu
      exact hu.fields
  | @completed k t w r hw hr =>
    have hrest : Formed ins { s with replies := s.replies.eraseIdx k } :=
      h.of_same rfl (fun _ hw => List.mem_of_mem_eraseIdx hw) rfl
    exact hr.formed hrest (ht k t rfl) (h.replies w (List.mem_of_getElem? hw))
  | @closed k q p r hp hd =>
    generalize p.request = p' at hd
    cases hd <;> exact h.of_same rfl (fun _ hw => hw) rfl
  | @told o v ob r _ _ _ hd =>
    have htold : Formed ins { s with
        observers := s.observers.set o { ob with reported := ob.reported ++ [v] } } :=
      h.of_same rfl (fun _ hw => hw) rfl
    have hv := (h.users v).fields
    generalize s.users v = n at hd hv
    cases hd with
    | accepted => exact htold.cache hv
    | ignored => exact htold
    | notDictionary => exact htold.of_same rfl (fun _ hw => hw) rfl
  | refused => exact h.of_same rfl (fun _ hw => hw) rfl
  | remoteRecord | remoteField => cases he

end Service

/-! ### The screens -/

theorem SignupScreen.formed_saveCall (sc : SignupScreen) : sc.saveCall.Formed ins := by
  intro u t ht k x hx
  cases k with
  | mUserDateOfBirth =>
    obtain rfl := Option.some.inj hx
    exact .inr (.inl rfl)
  | mUserGender =>
    obtain rfl := Option.some.inj hx
    exact .inl (by simp [genders])
  | mUserImgUrl =>
    obtain rfl := Option.some.inj hx
    exact .inl rfl
  | mUserJoinedDate =>
    obtain rfl := Option.some.inj hx
    exact ht
  | mFBLinking =>
    obtain rfl := Option.some.inj hx
    exact .inr rfl
  | mEmailLinking =>
    obtain rfl := Option.some.inj hx
    exact .inl rfl
  | mUserID | mUserName | mUserPhone | mUserEmail => trivial

theorem formed_getD {user : Option Profile} (hu : ∀ p ∈ user, Formed ins p.property)
    {k : Key} (hk : ValueFormed ins k "") :
    ValueFormed ins k ((user.bind (·.property k)).getD "") := by
  cases hx : user.bind (·.property k) with
  | none => exact hk
  | some x =>
    obtain ⟨p, hp, hpx⟩ := Option.bind_eq_some_iff.mp hx
    exact hu p hp k x hpx

theorem Screen.formed_receive {sc : Screen} {user : Option Profile} {m : Message}
    {cs : List Command} (hu : ∀ p ∈ user, Mioto.Formed ins p.property)
    (h : sc.receive user m = some cs) :
    ∀ c ∈ cs, c.Fits (Screen.Formed ins) (Call.Formed ins) := by
  cases received h with
  | editShown hs he =>
    simp only [EditProfileScreen.profileDataRecieved, hs, if_false, List.cons.injEq,
      Command.become.injEq, Screen.edit.injEq, and_true] at he
    have hdob : ValueFormed ins .mUserDateOfBirth
        ((user.bind Profile.mUserDateOfBirth).getD "") := formed_getD hu (.inl rfl)
    have hgender : ValueFormed ins .mUserGender ((user.bind Profile.mUserGender).getD "") :=
      formed_getD hu (.inl (by simp [genders]))
    simpa [Command.Fits, Screen.Formed, ← he] using And.intro hdob hgender
  | signedUp sc => simp [Command.Fits, Screen.Formed, sc.formed_saveCall]
  | _ => simp [Command.Fits, Screen.Formed]

theorem Screen.formed_typed {sc sc' : Screen} {field : TextField} {text : String}
    (hsc : sc.Formed ins) (ht : ins.typed field text) (h : sc.typed text field = some sc') :
    sc'.Formed ins := by
  unfold Screen.typed at h
  split at h <;> cases h
  case h_9 => exact ⟨.inr (.inr (.inr ht)), hsc.2⟩
  case h_10 => exact ⟨hsc.1, .inr ht⟩
  all_goals trivial

theorem Screen.formed_touched {sc : Screen} {touch : Touch} {cs : List Command}
    (hsc : sc.Formed ins) (ht : touch.Formed ins) (h : sc.touched touch = some cs) :
    ∀ c ∈ cs, c.Fits (Screen.Formed ins) (Call.Formed ins) := by
  cases touched_cases h with
  | typed htyped => simpa [Command.Fits] using formed_typed hsc ht htyped
  | dateChanged sc date =>
    have hdate : (Screen.edit { sc with mDob := date }).Formed ins :=
      ⟨.inr (.inr (.inl ht)), hsc.2⟩
    simpa [Command.Fits] using hdate
  | didSelectedRow sc second =>
    have hgender : (Screen.edit { sc with
        mGender := EditProfileScreen.genderArray second }).Formed ins := by
      refine ⟨hsc.1, .inl ?_⟩
      cases second <;> simp [genders, EditProfileScreen.genderArray]
    simpa [Command.Fits] using hgender
  | updateData sc =>
    have hcall : (Call.updateDataWithName sc.mName sc.mDob sc.mGender "" sc.mPhoneNumber).Formed
        ins := hsc
    simpa [Command.Fits] using hcall
  | _ => simp [Command.Fits, Screen.Formed, Call.Formed]

theorem Kind.formed_loaded (k : Kind) (user : Option Profile) :
    (k.loaded user).Formed ins := by
  cases k with
  | edit => exact ⟨.inl rfl, .inl (by simp [genders, EditProfileScreen.loaded])⟩
  | _ => trivial

namespace App

theorem keeps_formed {t : String} (ht : ins.today t) :
    Keeps (Service.Formed ins) (fun _ => Screen.Formed ins)
      (Call.Formed ins) (fun _ => True) (Touch.Formed ins) (fun _ => True) t where
  loaded s k _ _ _ := k.formed_loaded s.newUser
  loads := ⟨trivial, trivial⟩
  call s i c r hs hc hr := by
    obtain ⟨-, rfl⟩ := Service.step_call hr
    exact (Service.called ..).formed hs ht hc
  receive s _ sc m cs hs _ _ h := Screen.formed_receive hs.newUser h
  touched _ sc touch cs hsc hT h := Screen.formed_touched hsc hT h
  authStatus _ := trivial

theorem holds_formed_step {s : App} {e : Event} {r : Outcome} (h : s.step e = some r)
    (ht : ins.today e.stringTime) (hT : ∀ i touch, e.act = .touch i touch → touch.Formed ins)
    (he : e.act.isRemote = false)
    (hs : Holds (Service.Formed ins) (fun _ => Screen.Formed ins) s) :
    Holds (Service.Formed ins) (fun _ => Screen.Formed ins) r.1 := by
  have htold : ∀ (sv : Service) se rr, se.isRemote = false → (∀ i t c, se ≠ .call i t c) →
      (∀ k t, se = .complete k t → ins.today t) → Service.Formed ins sv →
      sv.step se = some rr → Service.Formed ins rr.1 := fun sv se rr hr hc hk hI hrr =>
    Service.formed_step hI hrr hr (fun i t c hcall => absurd hcall (hc i t c)) hk
  refine (keeps_formed ht).step h (fun _ _ => trivial) hs hT
    (fun se rr ha hrr => ⟨?_, fun _ _ => trivial⟩) (E := fun _ => True) trivial
    fun v _ sv o rr _ hI hrr =>
      ⟨htold sv _ rr rfl (by simp) (by simp) hI hrr, trivial, fun _ _ => trivial⟩
  rcases ha with ha | ha
  · rcases Act.silent_eq_some ha with ⟨k, q, ha, rfl⟩ | ⟨u, d, ha, -⟩ | ⟨u, k, v, ha, -⟩
    · exact htold _ _ rr rfl (by simp) (by simp) hs.service hrr
    all_goals simp [ha, Act.isRemote] at he
  · rcases Act.report_eq_some ha with ⟨k, -, rfl⟩ | ⟨k, q, -, rfl⟩
    · refine htold _ _ rr rfl (by simp) (fun k t hk => ?_) hs.service hrr
      cases hk
      exact ht
    · exact htold _ _ rr rfl (by simp) (by simp) hs.service hrr

end App

namespace Phones

variable {δ : Type} [DecidableEq δ]

/-- What the user enters on a phone, and what its clock gives. -/
def Dated (ins : Inputs) : PhoneEvent δ → Prop
  | .act _ e => ins.today e.stringTime ∧ ∀ i touch, e.act = .touch i touch → touch.Formed ins
  | .kill _ => True

structure AllFormed (ins : Inputs) (p : Phones δ) : Prop where
  users : ∀ u, NodeFormed ins u (p.users u)
  apps : ∀ d, App.Holds (Service.Formed ins) (fun _ => Screen.Formed ins) (p.sees d)

omit [DecidableEq δ] in
theorem allFormed_launch {p : Phones δ} (hl : Launch p) : AllFormed ins p := by
  have hnull : ∀ u, NodeFormed ins u (p.users u) := fun u => by
    rw [hl.users u]
    exact ⟨by simp, fun k x hx => by simp at hx, by simp⟩
  refine ⟨hnull, fun d => ⟨⟨hnull, ?_, ?_⟩, ?_⟩⟩
  · simp [sees, App.over, Service.over, (hl.apps d).service.replies]
  · simp [sees, App.over, Service.over, (hl.apps d).service.newUser]
  · simp [sees, App.over, (hl.apps d).screens]

/-- A phone that the others write around sees a well-formed database again. -/
theorem AllFormed.of_update {p : Phones δ} (h : AllFormed ins p) {users : Uid → Node}
    (hu : ∀ u, NodeFormed ins u (users u)) {d : δ} {s : App}
    (hs : App.Holds (Service.Formed ins) (fun _ => Screen.Formed ins)
      (s.over users)) :
    AllFormed ins { users := users, apps := Function.update p.apps d s } where
  users := hu
  apps d' := by
    by_cases hd : d' = d
    · subst hd
      rwa [sees_update_self]
    · rw [sees_update_of_ne _ _ hd]
      exact ⟨(h.apps d').service.over hu, (h.apps d').screens⟩

theorem allFormed_step {m : PhoneMove δ} (hm : machine.Fires m) (hd : Dated ins m.event)
    (hs : AllFormed ins m.before) : AllFormed ins m.after := by
  have hstep : m.before.step m.event = some (m.after, m.out) := hm
  cases he : m.event with
  | kill d =>
    rw [he] at hstep
    rw [← show _ = m.after from congrArg Prod.fst (Option.some.inj hstep)]
    refine hs.of_update hs.users ⟨⟨hs.users, ?_, ?_⟩, ?_⟩
    all_goals simp [App.over, Service.over, App.start, Fleet.restarted]
  | act d e =>
    rw [he] at hstep hd
    obtain ⟨hr, s, hss, hafter⟩ := step_act hstep
    have hnew := App.holds_formed_step hss hd.1 hd.2 hr (hs.apps d)
    rw [hafter]
    exact hs.of_update hnew.service.users
      ⟨hnew.service.over hnew.service.users, hnew.screens⟩

/-- In every run of the app on any phones from an empty database, every stored value is of the
form that its field has: the gender one of five texts, each link flag "true" or "false", the
picture one of three kinds of URL, each date what a formatter made or one of the two texts for
none, and mUserID the key that it is stored under. The gender and the date of birth may instead
be what was typed or pasted into their fields. -/
theorem store_well_formed {p₀ p : Phones δ} {h : List (PhoneMove δ)} (hl : Launch p₀)
    (hr : machine.Run p₀ h p) (hd : ∀ m ∈ h, Dated ins m.event) (u : Uid) :
    NodeFormed ins u (p.users u) :=
  (hr.invariant (allFormed_launch hl) (fun _ hm hd hi => allFormed_step hm hd hi) hd).users u

/-- Nobody picks a date or types one, and nobody types a gender. -/
def neverEdited : Inputs where
  picked _ := False
  today t := t = "today"
  typed field _ := field ≠ .mDob ∧ field ≠ .mGender

theorem signed_up_well_formed :
    let r := (machine.exec [] (start fun _ : Bool => none) signUpOnOne).get (by decide)
    ((r.2.users "u").field .mUserName = some "An") ∧
      NodeFormed neverEdited "u" (r.2.users "u") := by
  intro r
  refine ⟨by decide, store_well_formed (start_launch fun _ => none) (Machine.exec_run (by decide))
    ?_ "u"⟩
  exact Machine.forall_exec (by simp [signUpOnOne, App.script, Dated, Touch.Formed, neverEdited])
    (Machine.exec_eq_get _) (by simp)

end Phones

end Mioto
