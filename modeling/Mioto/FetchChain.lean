import Mioto.ChildAdded
import Mioto.UpdateFrame

/-! A fetch followed to its end: the reply, the decoding, the screen that shows the cache
and a later update. Missing data travels this way as `NSNull`, as nil or as an old cache. -/

namespace Mioto

/-- The five fields that an update carries over are there. -/
def CarriesOver (d : Dict) : Prop := ∀ k : Key, k.carried → (d k).isSome

instance (d : Dict) : Decidable (CarriesOver d) :=
  inferInstanceAs (Decidable (∀ k : Key, k.carried → (d k).isSome))

/-- A map with the five fields was fetched; or the fetch was cancelled, and the cache of
before has them. -/
def Reply.whole (cached : Option Profile) : Reply → Prop
  | .fetched _ n => ∃ d, n = .dict d ∧ CarriesOver d
  | .fetchCancelled _ => ∃ p, cached = some p ∧ CarriesOver p.property
  | _ => False

namespace App

variable (t : String) (fresh : List ScreenId)

/-- A step of the services, with what its listener does. -/
def ask (s : App) (e : ServiceEvent) : Outcome :=
  settle t fresh (s.serve e)

/-- The screen `i` fetches, `q` comes back and is completed, and the user updates. -/
def fetchChain (s : App) (i : ScreenId) (q : Reply)
    (name dob gender img number : String) : Outcome :=
  runAll (ask t fresh) s
    [.call i t .fetchData, .answer s.service.pending.length q,
      .complete s.service.replies.length t,
      .call i t (.updateDataWithName name dob gender img number)]

/-- A signed-in user's Profile or Edit screen is about to fetch. -/
structure AboutToFetch (s : App) (i : ScreenId) (u : Uid) : Prop where
  running : s.crashed = false
  user : s.service.currentUser = some u
  listens : s.fireBaseListener = some i
  screen : ∃ sc, s.screens i = some sc ∧ (sc.kind = .profile ∨ sc.kind = .edit)

/-- No exception, and status 1 only for a cache that is the record at `Users/u`. -/
def FetchesSafely (s : App) (u : Uid) (r : Outcome) : Prop :=
  r.1.crashed = false ∧ ∀ x ∈ deliveries r.2, x.2 = .profileDataRecieved 1 →
    ∃ d, s.service.users u = .dict d ∧ r.1.service.newUser = some (transformUser d)

theorem running_iff {s : App} : s.crashed = false ↔ s.raised = none ∧ s.service.raised = none := by
  simp [crashed]

theorem ask_of_none {s : App} {e : ServiceEvent} {r : Done}
    (hr : s.service.step e = some r) (hm : s.service.announced e = none) :
    ask t fresh s e = ({ s with service := r.1 }, [.service ⟨s.service, e, r.1, r.2⟩]) := by
  rw [ask, settle_serve_of_none hm, serve_of_step hr]

/-- The state in which the reply is waiting. -/
def answered (s : App) (i : ScreenId) (q : Reply) : App :=
  { s with service := { s.service with replies := s.service.replies ++ [⟨q, i⟩] } }

theorem ask_fetchData {s : App} {i : ScreenId} {u : Uid} (h : AboutToFetch s i u) :
    ∃ o, deliveries o = [] ∧ ask t fresh s (.call i t .fetchData) =
      ({ s with service := s.service.request i (.fetch u) }, o) := by
  have hcall : s.service.step (.call i t .fetchData) =
      some (s.service.request i (.fetch u), []) := by
    simp [Service.step, (running_iff.mp h.running).2, Service.call, Service.fetchData, h.user]
  exact ⟨_, rfl, ask_of_none t fresh hcall rfl⟩

theorem ask_answer {s : App} {i : ScreenId} {u : Uid} (h : s.service.raised = none) {q : Reply}
    (hq : s.service.answers (.fetch u) q) :
    ∃ o, deliveries o = [] ∧ ask t fresh { s with service := s.service.request i (.fetch u) }
      (.answer s.service.pending.length q) = (s.answered i q, o) := by
  have hby : Service.signedInBy q = none := by cases q <;> first | rfl | cases hq
  have hanswers : (s.service.request i (.fetch u)).answers (.fetch u) q := by
    rw [← hq]
    cases q <;> rfl
  have hp : (s.service.request i (.fetch u)).pending[s.service.pending.length]? =
      some ⟨.fetch u, i⟩ := List.getElem?_concat_length
  have hr : (s.service.request i (.fetch u)).raised.isSome = false := by
    simp [Service.request, h]
  have hstep : (s.service.request i (.fetch u)).step (.answer s.service.pending.length q) =
      some ({ s.service with replies := s.service.replies ++ [⟨q, i⟩] }, []) := by
    simp only [Service.step, hr, hp, Option.bind_some, hanswers, if_true, Bool.false_eq_true,
      if_false, show Service.refuses (.fetch u) q = false from rfl]
    simp [Service.request, Service.answer, hby, Service.eraseIdx_concat_length]
  exact ⟨_, rfl, ask_of_none t fresh (s := { s with service := s.service.request i (.fetch u) })
    hstep rfl⟩

/-- The chain from the moment the reply is back. -/
theorem fetchChain_eq {s : App} {i : ScreenId} {u : Uid} (h : AboutToFetch s i u) {q : Reply}
    (hq : s.service.answers (.fetch u) q) (name dob gender img number : String) :
    ∃ o, deliveries o = [] ∧ fetchChain t fresh s i q name dob gender img number =
      ((runAll (ask t fresh) (s.answered i q) [.complete s.service.replies.length t,
          .call i t (.updateDataWithName name dob gender img number)]).1,
        o ++ (runAll (ask t fresh) (s.answered i q) [.complete s.service.replies.length t,
          .call i t (.updateDataWithName name dob gender img number)]).2) := by
  obtain ⟨o₁, hd₁, h₁⟩ := ask_fetchData t fresh h
  obtain ⟨o₂, hd₂, h₂⟩ := ask_answer t fresh (i := i)
    (running_iff.mp h.running).2 hq
  refine ⟨o₁ ++ o₂, by simp [hd₁, hd₂], ?_⟩
  rw [fetchChain, runAll_cons_of_go (by rw [h₁]; exact h.running), h₁,
    runAll_cons_of_go (by rw [h₂]; exact h.running), h₂]
  simp only [List.append_assoc]

/-- The two screens show the cache, and the Profile screen raises for want of a date. -/
theorem deliver_profileDataRecieved {s : App} {i : ScreenId} {sc : Screen} (status : Int)
    (hc : s.crashed = false) (hl : s.fireBaseListener = some i) (hsc : s.screens i = some sc)
    (hk : sc.kind = .profile ∨ sc.kind = .edit) :
    ∃ screens o, deliver t fresh s (.profileDataRecieved status) = ({ s with
      screens := screens
      raised := if sc.kind = .profile ∧ s.service.newUser.bind Profile.mUserJoinedDate = none
        then some .nilArgument else s.raised }, o) := by
  have hlis : s.listening (.profileDataRecieved status) = some (i, sc) :=
    listening_eq_some.mpr ⟨hl, hsc⟩
  cases sc <;> simp only [Screen.kind, reduceCtorEq, or_self, or_false, or_true] at hk
  case profile sc =>
    simp only [deliver, hlis, Screen.receive, ProfileScreen.profileDataRecieved, Screen.kind,
      true_and]
    cases hd : s.service.newUser.bind Profile.mUserJoinedDate with
    | none =>
      simp only [runAll, Sequence.runAll_singleton, perform_raise]
      exact ⟨_, _, rfl⟩
    | some date =>
      simp only [reduceCtorEq, if_false]
      rw [runAll_cons_of_go (by rw [perform_become]; exact hc)]
      simp only [perform_become, runAll, Sequence.runAll_singleton, perform_endIgnoring]
      exact ⟨_, _, rfl⟩
  case edit sc =>
    simp only [deliver, hlis, Screen.receive, EditProfileScreen.profileDataRecieved, Screen.kind,
      reduceCtorEq, false_and, if_false]
    split_ifs
    · exact ⟨_, _, rfl⟩
    · simp only [runAll, Sequence.runAll_singleton, perform_become]
      exact ⟨_, _, rfl⟩

theorem updateDataWithName_raised_iff {s : Service} {u : Uid} (hr : s.raised = none)
    (hu : s.currentUser = some u) (name dob gender img number : String) :
    (s.updateDataWithName name dob gender img number).1.raised = none ↔
      ∃ p, s.newUser = some p ∧ CarriesOver p.property := by
  unfold CarriesOver
  rw [← Service.updatedRecord_complete_iff u s.newUser name dob gender number]
  simp only [Service.updateDataWithName, hu, dictionaryLiteral]
  split_ifs with h
  · exact iff_of_true hr h
  · exact iff_of_false (by simp [Service.raise]) h

theorem ask_update {s : App} {u : Uid} (h : s.crashed = false)
    (hu : s.service.currentUser = some u) (i : ScreenId) (name dob gender img number : String) :
    let r := ask t fresh s (.call i t (.updateDataWithName name dob gender img number))
    (r.1.crashed = false ↔ ∃ p, s.service.newUser = some p ∧ CarriesOver p.property) ∧
      r.1.service.newUser = s.service.newUser ∧ deliveries r.2 = [] := by
  obtain ⟨hs, hn⟩ := running_iff.mp h
  have hstep : s.service.step (.call i t (.updateDataWithName name dob gender img number)) =
      some (s.service.updateDataWithName name dob gender img number) := by
    simp [Service.step, hn, Service.call]
  intro r
  have he : r = _ := ask_of_none t fresh hstep rfl
  rw [he, ← updateDataWithName_raised_iff hn hu name dob gender img number]
  have hnew := (s.service.called i t (.updateDataWithName name dob gender img number)).newUser
  exact ⟨by simp [running_iff, hs], hnew, rfl⟩

/-- The reply is completed, and the listener shows what is then cached. -/
theorem ask_complete {s : App} {i : ScreenId} {u : Uid} (h : AboutToFetch s i u) {q : Reply}
    {status : Int} {user : Option Profile}
    (hq : s.service.completion t i q =
      ({ s.service with newUser := user }, [.send (.profileDataRecieved status)]))
    (ha : q.announced s.service = some (.profileDataRecieved status)) :
    ∃ (sc : Screen) (screens : ScreenId → Option Screen) (o : List Output),
      ask t fresh (s.answered i q) (.complete s.service.replies.length t) =
        ({ s with
          service := { s.service with newUser := user }
          screens := screens
          raised := if sc.kind = .profile ∧ user.bind Profile.mUserJoinedDate = none
            then some .nilArgument else none }, o) ∧
      ∀ x ∈ deliveries o, x.2 = .profileDataRecieved status := by
  obtain ⟨hs, hn⟩ := running_iff.mp h.running
  obtain ⟨sc, hsc, hk⟩ := h.screen
  have hstep : (s.answered i q).service.step (.complete s.service.replies.length t) =
      some ({ s.service with newUser := user }, [.send (.profileDataRecieved status)]) := by
    have hr : s.service.raised.isSome = false := by simp [hn]
    simp [Service.step, hr, answered, Service.complete, Service.eraseIdx_concat_length, ← hq]
  have hann : (s.answered i q).service.announced (.complete s.service.replies.length t) =
      some (.profileDataRecieved status) := by
    simp only [Service.announced, answered, List.getElem?_concat_length, Option.bind_some, ← ha]
    unfold Reply.announced
    split <;> rfl
  let s' : App := { s.answered i q with service := { s.service with newUser := user } }
  have hgo : s'.crashed = false := running_iff.mpr ⟨hs, hn⟩
  obtain ⟨screens, o, hdel⟩ := deliver_profileDataRecieved t fresh status
    hgo h.listens hsc hk
  have hask := settle_serve_of_some (s := s.answered i q) (t := t) hs hstep hann fresh
  rw [show deliver t fresh _ (.profileDataRecieved status) = _ from hdel,
    show s'.raised = none from hs] at hask
  refine ⟨sc, screens, _, hask, fun x hx => ?_⟩
  have hd := deliveries_deliver t fresh s' (.profileDataRecieved status)
  rw [hdel] at hd
  rw [deliveries_service, hd, Option.mem_toList] at hx
  obtain ⟨y, -, rfl⟩ := Option.map_eq_some_iff.mp hx
  rfl

/-- What cannot be decoded raises, and nothing follows. -/
theorem chain_raised {s : App} {i : ScreenId} {u : Uid} (h : AboutToFetch s i u) {q : Reply}
    (hq : s.service.completion t i q = s.service.raise .unrecognizedSelector)
    (ha : ∀ s' : Service, q.announced s' = none) (name dob gender img number : String) :
    (runAll (ask t fresh) (s.answered i q) [.complete s.service.replies.length t,
      .call i t (.updateDataWithName name dob gender img number)]).1.crashed = true := by
  have hstep : (s.answered i q).service.step (.complete s.service.replies.length t) =
      some (s.service.raise .unrecognizedSelector) := by
    have hr : s.service.raised.isSome = false := by simp [(running_iff.mp h.running).2]
    simp [Service.step, hr, answered, Service.complete, Service.eraseIdx_concat_length, ← hq]
  have hann : (s.answered i q).service.announced (.complete s.service.replies.length t) = none := by
    simp [Service.announced, answered, ha]
  have hask := ask_of_none t fresh hstep hann
  rw [runAll, Sequence.runAll_cons, hask,
    Sequence.andThen_of_stop crashed (by simp [crashed, Service.raise])]
  simp [crashed, Service.raise]

/-- The update goes by what is cached once the reply has been shown. -/
theorem chain_shown {s : App} {i : ScreenId} {u : Uid} (h : AboutToFetch s i u) (status : Int)
    (user : Option Profile) {q : Reply}
    (hq : s.service.completion t i q =
      ({ s.service with newUser := user }, [.send (.profileDataRecieved status)]))
    (ha : q.announced s.service = some (.profileDataRecieved status))
    (name dob gender img number : String) :
    let r := runAll (ask t fresh) (s.answered i q) [.complete s.service.replies.length t,
      .call i t (.updateDataWithName name dob gender img number)]
    (r.1.crashed = false ↔ ∃ p, user = some p ∧ CarriesOver p.property) ∧
      r.1.service.newUser = user ∧ ∀ x ∈ deliveries r.2, x.2 = .profileDataRecieved status := by
  obtain ⟨sc, screens, o, hask, ho⟩ := ask_complete t fresh h hq ha
  have hn := (running_iff.mp h.running).2
  simp only [runAll, Sequence.runAll_cons, hask]
  by_cases hd : sc.kind = .profile ∧ user.bind Profile.mUserJoinedDate = none
  · rw [Sequence.andThen_of_stop crashed (by simp [crashed, hd])]
    refine ⟨iff_of_false (by simp [crashed, hd]) ?_, rfl, ho⟩
    rintro ⟨p, rfl, hp⟩
    have hdate := hp .mUserJoinedDate rfl
    rw [show p.property .mUserJoinedDate = none from hd.2] at hdate
    cases hdate
  · rw [if_neg hd, Sequence.andThen_of_go crashed (running_iff.mpr ⟨rfl, hn⟩)]
    obtain ⟨hiff, hnew, hnone⟩ := ask_update t fresh
      (s := { s with
        service := { s.service with newUser := user }
        screens := screens
        raised := none }) (running_iff.mpr ⟨rfl, hn⟩) h.user i name dob gender img number
    simp only [Sequence.runAll_nil, Sequence.andThen_pure]
    refine ⟨hiff, hnew, fun x hx => ?_⟩
    rw [deliveries_append, hnone, List.append_nil] at hx
    exact ho x hx

/-- A fetch with what follows from it is safe exactly when what it leaves in the cache has
the five fields that an update carries over. -/
theorem fetch_chain_safe_iff {s : App} {i : ScreenId} {u : Uid}
    (h : AboutToFetch s i u) {q : Reply} (hq : s.service.answers (.fetch u) q)
    (name dob gender img number : String) :
    FetchesSafely s u (fetchChain t fresh s i q name dob gender img number) ↔
      q.whole s.service.newUser := by
  obtain ⟨o, hd, he⟩ := fetchChain_eq t fresh h hq name dob gender img number
  rw [he, FetchesSafely]
  simp only [deliveries_append, hd, List.nil_append]
  cases q <;> simp [Service.answers] at hq
  case fetched u' n =>
    obtain ⟨rfl, rfl⟩ := hq
    cases hn : s.service.users u' with
    | dict d =>
      obtain ⟨hiff, hnew, hone⟩ := chain_shown t fresh h 1 (some (transformUser d))
        (q := .fetched u' (.dict d)) rfl rfl name dob gender img number
      rw [hiff, hnew]
      constructor
      · rintro ⟨⟨p, hp, hc⟩, -⟩
        obtain rfl := Option.some.inj hp
        exact ⟨d, rfl, by simpa using hc⟩
      · rintro ⟨d', hd', hc⟩
        obtain rfl := Node.dict.inj hd'
        exact ⟨⟨_, rfl, by simpa using hc⟩, fun _ _ _ => ⟨d, rfl, rfl⟩⟩
    | null =>
      refine iff_of_false (fun hsafe => ?_) (by simp [Reply.whole])
      rw [chain_raised t fresh (q := .fetched u' .null) h rfl fun _ => rfl] at hsafe
      cases hsafe.1
    | leaf x =>
      refine iff_of_false (fun hsafe => ?_) (by simp [Reply.whole])
      rw [chain_raised t fresh (q := .fetched u' (.leaf x)) h rfl fun _ => rfl] at hsafe
      cases hsafe.1
  case fetchCancelled u' =>
    subst hq
    obtain ⟨hiff, hnew, hone⟩ := chain_shown t fresh h 0 s.service.newUser
      (q := .fetchCancelled u') rfl rfl name dob gender img number
    rw [hiff]
    refine and_iff_left fun x hx hone' => ?_
    rw [hone x hx] at hone'
    cases hone'

/-- The user `u` on a Profile screen, over a database with the records of `ids`. -/
def onProfile (ids : List Uid) : App :=
  { start (Service.launch (some "u") ids) with
    fireBaseListener := some 0
    screens := fun j => if j = 0 then some (.profile .loaded) else none }

theorem onProfile_aboutToFetch (ids : List Uid) : AboutToFetch (onProfile ids) 0 "u" :=
  ⟨rfl, rfl, rfl, .profile .loaded, rfl, .inl rfl⟩

theorem stored_record_fetched_safely : FetchesSafely (onProfile ["u"]) "u"
    (fetchChain "today" [] (onProfile ["u"]) 0 (.fetched "u" (.dict (Service.signupRecord "u")))
      "name" "dob" "gender" "" "number") :=
  (fetch_chain_safe_iff "today" [] (onProfile_aboutToFetch ["u"]) (by decide) ..).mpr
    ⟨Service.signupRecord "u", rfl, by decide⟩

theorem missing_record_raises : ¬ ∀ t fresh s i u q name dob gender img number,
    AboutToFetch s i u → s.service.answers (.fetch u) q →
      FetchesSafely s u (fetchChain t fresh s i q name dob gender img number) := by
  intro hall
  have hsafe := hall "today" [] (onProfile []) 0 "u" (.fetched "u" .null) "name" "dob" "gender" ""
    "number" (onProfile_aboutToFetch []) (by decide)
  exact absurd hsafe.1 (by decide)

end App

end Mioto
