import Mioto.UpdateFrame

/-! The three lists of ten keys, in the first save, the update and the decoding. A saved
record is decoded as it was saved, and a decoded one is written back as it was. -/

namespace Mioto

def UpdateArguments.applyTo (a : UpdateArguments) (d : Dict) : Dict :=
  editedRecord d a.name a.dob a.gender a.number

theorem editedRecord_of_carried {k : Key} (hk : k.carried) (d : Dict)
    (name dob gender number : String) : editedRecord d name dob gender number k = d k := by
  cases k <;> first | rfl | cases hk

/-- A record with its own four fields entered again. -/
theorem editedRecord_self {d : Dict} {name dob gender number : String}
    (hname : d .mUserName = some name) (hdob : d .mUserDateOfBirth = some dob)
    (hgender : d .mUserGender = some gender) (hnumber : d .mUserPhone = some number) :
    editedRecord d name dob gender number = d := by
  funext k
  cases k <;> first | rfl | exact hname.symm | exact hdob.symm | exact hgender.symm |
    exact hnumber.symm

namespace Service

def getData (s : Service) : Option Profile := s.newUser

/-- What is stored after the updates of a history, the latest move first. -/
def storedRecord (d : Dict) (h : ServiceHistory) : Dict :=
  (h.findSome? (·.event.updateArguments)).elim d (·.applyTo d)

/-- `u` saves a record of strings, nothing else writes it, and a fetch finds what was set. -/
structure SaveThenFetch (u : Uid)
    (t email name dob gender img number fbLink emailLink : String) (save : ServiceMove)
    (between : ServiceHistory) (fetch : ServiceMove) : Prop where
  saves : ∃ i, save.event = .call i t (.saveDataWithEmail (some email) (some name) (some dob)
    (some gender) (some img) (some number) (some fbLink) (some emailLink))
  user : save.before.currentUser = some u
  kept : ∀ m ∈ between, m.after.users u = m.before.users u
  fetches : ∃ d, fetch.before.fetches fetch.event = some (u, d) ∧ fetch.before.users u = .dict d

/-- `d` is fetched for `u`, and `u` updates with what `d` has and with any image. The cache
is not assigned in between. -/
structure FetchThenUpdate (u : Uid) (d : Dict) (fetch : ServiceMove) (between : ServiceHistory)
    (update : ServiceMove) : Prop where
  fetches : fetch.before.fetches fetch.event = some (u, d)
  cached : ∀ m ∈ between, m.before.fetches m.event = none ∧ m.before.reports m.event = none
  user : update.before.currentUser = some u
  updates : ∃ i t name dob gender img number,
    update.event = .call i t (.updateDataWithName name dob gender img number) ∧
      d .mUserName = some name ∧ d .mUserDateOfBirth = some dob ∧
      d .mUserGender = some gender ∧ d .mUserPhone = some number

/-- All updates are by `u` and come after a fetch. Nothing else writes the record of `u` or
assigns the cache, and a fetch finds what was last set. -/
structure FetchesAndUpdates (u : Uid) (h : ServiceHistory) : Prop where
  user : ∀ m ∈ h, m.event.updateArguments.isSome → m.before.currentUser = some u
  fetched : Machine.Each (fun older m => m.event.updateArguments.isSome →
    ∃ f ∈ older, (f.before.fetches f.event).isSome) h
  kept : ∀ m ∈ h, m.event.updateArguments = none → m.after.users u = m.before.users u
  fetches : ∀ m ∈ h, ∀ x ∈ m.before.fetches m.event, x.1 = u ∧ m.before.users u = .dict x.2
  reports : ∀ m ∈ h, m.before.reports m.event = none

theorem updateArguments_eq_some {e : ServiceEvent} {a : UpdateArguments}
    (h : e.updateArguments = some a) :
    ∃ i t img, e = .call i t (.updateDataWithName a.name a.dob a.gender img a.number) := by
  unfold ServiceEvent.updateArguments at h
  split at h <;> cases h
  exact ⟨_, _, _, rfl⟩

/-- An update writes the edited record when the cache has what `d` carries over. -/
theorem updateDataWithName_eq {s : Service} {u : Uid} {p : Profile} {d : Dict}
    (hu : s.currentUser = some u) (hp : s.newUser = some p) (hd : Complete d)
    (hid : d .mUserID = some u) (hc : ∀ k : Key, k.carried → p.property k = d k)
    (name dob gender img number : String) :
    s.updateDataWithName name dob gender img number =
      s.setRecord u (editedRecord d name dob gender number) := by
  have he : updatedRecord u s.newUser name dob gender number =
      editedRecord d name dob gender number :=
    (updatedRecord_eq_edited_iff hd name dob gender number).mpr ⟨p, hp, hc, hid⟩
  have hl : dictionaryLiteral (editedRecord d name dob gender number) =
      some (editedRecord d name dob gender number) :=
    dictionaryLiteral_eq_some.mpr ⟨rfl, hd.edited name dob gender number⟩
  simp only [updateDataWithName, hu, he, hl]

theorem update_step {m : ServiceMove} (hm : machine.Fires m) {u : Uid} {p : Profile} {d : Dict}
    (hu : m.before.currentUser = some u) (hp : m.before.newUser = some p) (hd : Complete d)
    (hid : d .mUserID = some u) (hc : ∀ k : Key, k.carried → p.property k = d k)
    {a : UpdateArguments} (ha : m.event.updateArguments = some a) :
    (m.after, m.out) = m.before.setRecord u (a.applyTo d) ∧ m.before.raised = none := by
  obtain ⟨i, t, img, he⟩ := updateArguments_eq_some ha
  have hs : m.before.step m.event = some (m.after, m.out) := hm
  rw [he] at hs
  obtain ⟨hr, hcall⟩ := step_call hs
  exact ⟨hcall.symm.trans
      (updateDataWithName_eq hu hp hd hid hc a.name a.dob a.gender img a.number),
    hr⟩

theorem saved_decodes {s₀ s : Service} {fetch save : ServiceMove} {between older : ServiceHistory}
    (hr : machine.Run s₀ (fetch :: (between ++ save :: older)) s) {u : Uid}
    {t email name dob gender img number fbLink emailLink : String}
    (h : SaveThenFetch u t email name dob gender img number fbLink emailLink save between fetch) :
    s.newUser = some (transformUser (savedRecord u t (some email) (some name) (some dob)
      (some gender) (some img) (some number) (some fbLink) (some emailLink))) := by
  obtain ⟨i, he⟩ := h.saves
  obtain ⟨d, hf, hd⟩ := h.fetches
  have hbefore : machine.Run s₀ (between ++ save :: older) fetch.before := hr.tail
  have hsave : save.before.step save.event = some (save.after, save.out) :=
    hbefore.fires save (by simp)
  rw [he] at hsave
  obtain ⟨-, hcall⟩ := step_call hsave
  have hset : save.after.users u = .dict (savedRecord u t (some email) (some name) (some dob)
      (some gender) (some img) (some number) (some fbLink) (some emailLink)) := by
    rw [call, saveDataWithEmail_of_strings h.user] at hcall
    rw [← show _ = save.after from congrArg Prod.fst hcall,
      ← Node.ofDict_of_isSome (k := .mUserID) rfl]
    exact Function.update_self ..
  have hkept : fetch.before.users u = save.after.users u :=
    (hbefore.after rfl).invariant (I := fun s => s.users u = save.after.users u) rfl
      (fun _ _ hk hi => hk.trans hi) h.kept
  obtain rfl := Node.dict.inj (hd.symm.trans (hkept.trans hset))
  cases hr with
  | cons _ hfire => exact newUser_of_fetches hfire hf

theorem cached_until {s₁ s : Service} {between : ServiceHistory} (hr : machine.Run s₁ between s)
    (h : ∀ m ∈ between, m.before.fetches m.event = none ∧ m.before.reports m.event = none) :
    s.newUser = s₁.newUser :=
  hr.invariant (I := fun s => s.newUser = s₁.newUser) rfl
    (fun _ hm hq hi => (newUser_of_none hm hq.1 hq.2).trans hi) h

theorem fetched_written_back {s₀ s : Service} {update fetch : ServiceMove}
    {between older : ServiceHistory}
    (hr : machine.Run s₀ (update :: (between ++ fetch :: older)) s) {u : Uid} {d : Dict}
    (hd : Complete d) (hid : d .mUserID = some u) (h : FetchThenUpdate u d fetch between update) :
    update.out = [.setRecord u d] ∧ s.raised = none ∧
      s.users = Function.update update.before.users u (.dict d) := by
  obtain ⟨i, t, name, dob, gender, img, number, he, hname, hdob, hgender, hnumber⟩ := h.updates
  have hbefore : machine.Run s₀ (between ++ fetch :: older) update.before := hr.tail
  have hp : update.before.newUser = some (transformUser d) :=
    (cached_until (hbefore.after rfl) h.cached).trans
      (newUser_of_fetches (hbefore.fires fetch (by simp)) h.fetches)
  cases hr with
  | cons _ hfire =>
    obtain ⟨heq, hraised⟩ := update_step hfire h.user hp hd hid
      (fun k _ => congrFun (property_transformUser d) k)
      (a := ⟨name, dob, gender, number⟩) (by rw [he]; rfl)
    have hself : UpdateArguments.applyTo ⟨name, dob, gender, number⟩ d = d :=
      editedRecord_self hname hdob hgender hnumber
    rw [hself] at heq
    obtain ⟨hafter, hout⟩ := Prod.mk.inj heq
    refine ⟨hout, ?_, ?_⟩
    · rw [hafter]
      exact hraised
    · rw [hafter, ← Node.ofDict_of_isSome (hd .mUserID)]

/-! ### Fetches and updates in turn -/

theorem FetchesAndUpdates.tail {u : Uid} {m : ServiceMove} {h : ServiceHistory}
    (hh : FetchesAndUpdates u (m :: h)) : FetchesAndUpdates u h where
  user := fun m' hm' => hh.user m' (List.mem_cons_of_mem _ hm')
  fetched := hh.fetched.2
  kept := fun m' hm' => hh.kept m' (List.mem_cons_of_mem _ hm')
  fetches := fun m' hm' => hh.fetches m' (List.mem_cons_of_mem _ hm')
  reports := fun m' hm' => hh.reports m' (List.mem_cons_of_mem _ hm')

/-- The cache ties the stored record to `d`: after the first fetch it has what `d` carries
over, whatever the updates have made of the other fields. -/
structure Tied (u : Uid) (d : Dict) (h : ServiceHistory) (s : Service) : Prop where
  stored : s.users u = .dict (storedRecord d h)
  cached : (∃ f ∈ h, (f.before.fetches f.event).isSome) →
    ∃ p, s.newUser = some p ∧ ∀ k : Key, k.carried → p.property k = d k

theorem storedRecord_of_carried {k : Key} (hk : k.carried) (d : Dict) (h : ServiceHistory) :
    storedRecord d h k = d k := by
  unfold storedRecord
  cases h.findSome? (·.event.updateArguments) with
  | none => rfl
  | some a => exact editedRecord_of_carried hk d ..

theorem tied_update {u : Uid} {d : Dict} {h : ServiceHistory} {m : ServiceMove}
    (hm : machine.Fires m) (hd : Complete d) (hid : d .mUserID = some u)
    (hh : FetchesAndUpdates u (m :: h)) (ht : Tied u d h m.before) {a : UpdateArguments}
    (ha : m.event.updateArguments = some a) : Tied u d (m :: h) m.after := by
  have hsome : m.event.updateArguments.isSome := by rw [ha]; rfl
  obtain ⟨p, hp, hc⟩ := ht.cached (hh.fetched.1 hsome)
  have heq := (update_step hm (hh.user m List.mem_cons_self hsome) hp hd hid hc ha).1
  have hafter : m.after = (m.before.setRecord u (a.applyTo d)).1 := congrArg Prod.fst heq
  refine ⟨?_, fun _ => ⟨p, ?_, hc⟩⟩
  · have hs : storedRecord d (m :: h) = a.applyTo d := by
      simp [storedRecord, ha]
    have hc' : Complete (a.applyTo d) := hd.edited a.name a.dob a.gender a.number
    rw [hs, hafter, ← Node.ofDict_of_isSome (hc' .mUserID)]
    exact Function.update_self ..
  · rw [hafter]
    exact hp

theorem tied_step {u : Uid} {d : Dict} {h : ServiceHistory} {m : ServiceMove}
    (hm : machine.Fires m) (hd : Complete d) (hid : d .mUserID = some u)
    (hh : FetchesAndUpdates u (m :: h)) (ht : Tied u d h m.before) : Tied u d (m :: h) m.after := by
  cases ha : m.event.updateArguments with
  | some a => exact tied_update hm hd hid hh ht ha
  | none =>
    have hs : storedRecord d (m :: h) = storedRecord d h := by
      simp [storedRecord, ha]
    refine ⟨?_, fun hf => ?_⟩
    · rw [hs, hh.kept m List.mem_cons_self ha, ht.stored]
    cases hx : m.before.fetches m.event with
    | some x =>
      -- what is fetched is the stored record, whose carried fields are those of `d`
      obtain ⟨-, hrec⟩ := hh.fetches m List.mem_cons_self x hx
      have hx2 : x.2 = storedRecord d h := Node.dict.inj (hrec.symm.trans ht.stored)
      refine ⟨_, newUser_of_fetches hm hx, fun k hk => ?_⟩
      rw [property_transformUser, hx2, storedRecord_of_carried hk]
    | none =>
      obtain ⟨f, hf, hsome⟩ := hf
      rcases List.mem_cons.mp hf with rfl | hf
      · rw [hx] at hsome
        cases hsome
      · rw [newUser_of_none hm hx (hh.reports m List.mem_cons_self)]
        exact ht.cached ⟨f, hf, hsome⟩

theorem tied_run {s₀ s : Service} {h : ServiceHistory} (hr : machine.Run s₀ h s) {u : Uid}
    {d : Dict} (hu : s₀.users u = .dict d) (hd : Complete d) (hid : d .mUserID = some u)
    (hh : FetchesAndUpdates u h) : Tied u d h s := by
  induction hr with
  | nil => exact ⟨hu, fun ⟨f, hf, _⟩ => by cases hf⟩
  | cons _ hm ih => exact tied_step hm hd hid hh (ih hh.tail)

/-- In every run: what is saved is decoded as it was saved, what is fetched is written back
as it was fetched, and after any number of fetches and updates the record differs from what
it was at first in the four fields of the last update and in no other. -/
theorem profile_codec_lossless {s₀ s : Service} {h : ServiceHistory} (hr : machine.Run s₀ h s)
    (u : Uid) :
    (∀ fetch between save older t email name dob gender img number fbLink emailLink,
      h = fetch :: (between ++ save :: older) →
      SaveThenFetch u t email name dob gender img number fbLink emailLink save between fetch →
      s.getData = some
        { mUserDateOfBirth := some dob
          mUserEmail := some email
          mUserGender := some gender
          mUserID := some u
          mUserImgUrl := some img
          mUserName := some name
          mUserPhone := some number
          mUserJoinedDate := some t
          mFBLinking := some fbLink
          mEmailLinking := some emailLink }) ∧
    (∀ update between fetch older d, h = update :: (between ++ fetch :: older) →
      Complete d → d .mUserID = some u → FetchThenUpdate u d fetch between update →
      update.out = [.setRecord u d] ∧ s.raised = none ∧
        s.users = Function.update update.before.users u (.dict d)) ∧
    (∀ d, s₀.users u = .dict d → Complete d → d .mUserID = some u → FetchesAndUpdates u h →
      s.users u = .dict ((h.findSome? (·.event.updateArguments)).elim d fun a =>
        editedRecord d a.name a.dob a.gender a.number)) := by
  refine ⟨?_, ?_, ?_⟩
  · rintro fetch between save older t email name dob gender img number fbLink emailLink rfl hsf
    exact saved_decodes hr hsf
  · rintro update between fetch older d rfl hd hid hfu
    exact fetched_written_back hr hd hid hfu
  · intro d hu hd hid hh
    exact (tied_run hr hu hd hid hh).stored

def saveThenFetch : List ServiceEvent :=
  [.call 1 "09/01/2019" (.saveDataWithEmail (some "u@mail.com") (some "u") (some unchosen)
      (some " ") (some "default.jpg") (some unchosen) (some "false") (some "true")),
    .call 1 "" .fetchData, .answer 0 (.fetched "u" (.dict (signupRecord "u"))), .complete 0 ""]

def fetchThenRepeat : List ServiceEvent :=
  [.call 1 "" .fetchData, .answer 0 (.fetched "u" (.dict (signupRecord "u"))), .complete 0 "",
    .call 1 "" (.updateDataWithName "u" unchosen " " "" unchosen)]

def twoEdits : List ServiceEvent :=
  fetchThenUpdate ++
    [.call 1 "" .fetchData,
      .answer 0 (.fetched "u" (.dict (updatedRecord "u" (some (transformUser (signupRecord "u")))
        "An" "01/01/1990" "Nam" "0123"))),
      .complete 0 "", .call 1 "" (.updateDataWithName "Binh" "02/02/1992" "Nu" "" "0456")]

theorem edits_lossless :
    let r₁ := (machine.exec [] (launch (some "u") []) saveThenFetch).get (by decide)
    let r₂ := (machine.exec [] (launch (some "u") ["u"]) fetchThenRepeat).get (by decide)
    let r₃ := (machine.exec [] (launch (some "u") ["u"]) twoEdits).get (by decide)
    r₁.2.getData = some (transformUser (signupRecord "u")) ∧
      r₂.2.users "u" = .dict (signupRecord "u") ∧
      r₃.2.users "u" =
        .dict (editedRecord (signupRecord "u") "Binh" "02/02/1992" "Nu" "0456") := by
  intro r₁ r₂ r₃
  refine ⟨?_, ?_, ?_⟩
  · have hr : machine.Run (launch (some "u") []) r₁.1 r₁.2 := Machine.exec_run _
    have hsplit : r₁.1 = r₁.1[0] :: ((r₁.1.drop 1).take 2 ++ r₁.1[3] :: []) := rfl
    exact (profile_codec_lossless hr "u").1 _ _ _ _ _ _ _ _ _ _ _ _ _ hsplit
      ⟨⟨1, rfl⟩, rfl, by decide, ⟨signupRecord "u", rfl, rfl⟩⟩
  · have hr : machine.Run (launch (some "u") ["u"]) r₂.1 r₂.2 := Machine.exec_run _
    have hsplit : r₂.1 = r₂.1[0] :: ([] ++ r₂.1[1] :: r₂.1.drop 2) := rfl
    obtain ⟨-, -, husers⟩ := (profile_codec_lossless hr "u").2.1 _ _ _ _ (signupRecord "u") hsplit
      (by decide) rfl ⟨rfl, by simp, rfl, 1, "", "u", unchosen, " ", "", unchosen, rfl, rfl, rfl,
        rfl, rfl⟩
    rw [husers, Function.update_self]
  · have hr : machine.Run (launch (some "u") ["u"]) r₃.1 r₃.2 := Machine.exec_run _
    have hh := (profile_codec_lossless hr "u").2.2 (signupRecord "u") rfl (by decide) rfl
      ⟨by decide, by decide, by decide, by decide,
        by decide⟩
    exact hh

end Service

end Mioto
