import Mioto.Freshness

/-! What `updateDataWithName:` does to the record of the signed-in user. Four
fields come from the caller and five from the cache `newUser`, so the record
keeps its other fields exactly when the cache still agrees with the server. -/

namespace Mioto

def Key.carried : Key → Bool
  | .mUserImgUrl | .mUserEmail | .mUserJoinedDate | .mFBLinking | .mEmailLinking => true
  | _ => false

def Complete (d : Dict) : Prop := ∀ k, (d k).isSome

instance (d : Dict) : Decidable (Complete d) := inferInstanceAs (Decidable (∀ k, (d k).isSome))

def editedRecord (d : Dict) (name dob gender number : String) : Dict
  | .mUserName => some name
  | .mUserDateOfBirth => some dob
  | .mUserGender => some gender
  | .mUserPhone => some number
  | k => d k

theorem Complete.edited {d : Dict} (hd : Complete d) (name dob gender number : String) :
    Complete (editedRecord d name dob gender number) := by
  intro k
  cases k <;> first | rfl | exact hd _

/-- The four values that an update passes on. -/
structure UpdateArguments where
  name : String
  dob : String
  gender : String
  number : String
  deriving DecidableEq

def ServiceEvent.updateArguments : ServiceEvent → Option UpdateArguments
  | .call _ _ (.updateDataWithName name dob gender _ number) => some ⟨name, dob, gender, number⟩
  | _ => none

namespace Service

/-- The cached profile agrees with `Users/u` on every field an update carries
over, and the record has the uid that an update writes. -/
def CacheAgrees (s : Service) (u : Uid) : Prop :=
  ∃ p, s.newUser = some p ∧ (∀ k, k.carried → p.property k = (s.users u).field k) ∧
    (s.users u).field .mUserID = some u

theorem updatedRecord_of_carried {k : Key} (hk : k.carried) (u : Uid) (p : Option Profile)
    (name dob gender number : String) :
    updatedRecord u p name dob gender number k = p.bind (Profile.property · k) := by
  cases k <;> first | rfl | cases hk

theorem updatedRecord_isSome {k : Key} (hk : k.carried = false) (u : Uid) (p : Option Profile)
    (name dob gender number : String) : (updatedRecord u p name dob gender number k).isSome := by
  cases k <;> first | rfl | cases hk

/-- An update has nothing missing when the cache has the five fields it carries over. -/
theorem updatedRecord_complete_iff (u : Uid) (p : Option Profile)
    (name dob gender number : String) :
    Complete (updatedRecord u p name dob gender number) ↔
      ∃ q, p = some q ∧ ∀ k : Key, k.carried → (q.property k).isSome := by
  constructor
  · intro h
    have hc : ∀ k : Key, k.carried → (p.bind (Profile.property · k)).isSome := fun k hk =>
      updatedRecord_of_carried hk u p name dob gender number ▸ h k
    cases p with
    | none => cases hc .mUserEmail rfl
    | some q => exact ⟨q, rfl, hc⟩
  · rintro ⟨q, rfl, hq⟩ k
    cases hk : k.carried with
    | true => exact updatedRecord_of_carried hk u (some q) name dob gender number ▸ hq k hk
    | false => exact updatedRecord_isSome hk u _ name dob gender number

theorem updatedRecord_eq_edited_iff {u : Uid} {p : Option Profile} {d : Dict}
    (hd : Complete d) (name dob gender number : String) :
    updatedRecord u p name dob gender number = editedRecord d name dob gender number ↔
      ∃ q, p = some q ∧ (∀ k, k.carried → q.property k = d k) ∧ d .mUserID = some u := by
  constructor
  · intro he
    have hk := congrFun he
    cases p with
    | none =>
      have hn := hd .mUserEmail
      have he := hk .mUserEmail
      simp only [updatedRecord, editedRecord, Option.bind_none] at he
      simp [← he] at hn
    | some q =>
      refine ⟨q, rfl, ?_, (hk .mUserID).symm⟩
      intro k hc
      cases k <;> simp [Key.carried] at hc
      · exact hk .mUserEmail
      · exact hk .mUserImgUrl
      · exact hk .mUserJoinedDate
      · exact hk .mFBLinking
      · exact hk .mEmailLinking
  · rintro ⟨q, rfl, hc, hu⟩
    funext k
    cases k <;> first | rfl | exact hu.symm | skip
    · exact hc .mUserEmail rfl
    · exact hc .mUserImgUrl rfl
    · exact hc .mUserJoinedDate rfl
    · exact hc .mFBLinking rfl
    · exact hc .mEmailLinking rfl

theorem updateDataWithName_iff {s : Service} {u : Uid} {d : Dict} (hr : s.raised = none)
    (hu : s.currentUser = some u) (hn : s.users u = .dict d) (hd : Complete d)
    (name dob gender img number : String) :
    (s.updateDataWithName name dob gender img number).1.raised = none ∧
      (s.updateDataWithName name dob gender img number).1.users =
        Function.update s.users u (.dict (editedRecord d name dob gender number)) ↔
    s.CacheAgrees u := by
  have hiff := updatedRecord_eq_edited_iff (u := u) (p := s.newUser) hd name dob gender number
  have hagree : s.CacheAgrees u ↔
      updatedRecord u s.newUser name dob gender number = editedRecord d name dob gender number := by
    rw [hiff]
    simp [CacheAgrees, hn]
  rw [hagree]
  cases hl : dictionaryLiteral (updatedRecord u s.newUser name dob gender number) with
  | none =>
    obtain ⟨k, hk⟩ := dictionaryLiteral_eq_none.mp hl
    have hne : updatedRecord u s.newUser name dob gender number ≠
        editedRecord d name dob gender number := by
      intro he
      have hc := hd.edited name dob gender number k
      rw [← he, hk] at hc
      simp at hc
    simp [updateDataWithName, hu, hl, raise, hne]
  | some d' =>
    obtain ⟨rfl, hs⟩ := dictionaryLiteral_eq_some.mp hl
    simp only [updateDataWithName, hu, hl, setRecord, hr, true_and,
      Node.ofDict_of_isSome (hs .mUserID)]
    constructor
    · intro he
      have hh := congrFun he u
      simpa using hh
    · intro he
      rw [he]

/-! ### Updates along a run -/

/-- `m` is an update call while `u` is signed in and `Users/u` is the complete
record `d`. -/
def IsUpdate (m : ServiceMove) (u : Uid) (d : Dict) (name dob gender number : String) : Prop :=
  (∃ caller t img, m.event = .call caller t (.updateDataWithName name dob gender img number)) ∧
    m.before.currentUser = some u ∧ m.before.users u = .dict d ∧ Complete d

/-- If `m` is an update, it changes the four edited fields of the user's record
and nothing else in the database. -/
def KeepsOtherFields (m : ServiceMove) : Prop :=
  ∀ u d name dob gender number, IsUpdate m u d name dob gender number →
    m.after.raised = none ∧
      m.after.users =
        Function.update m.before.users u (.dict (editedRecord d name dob gender number))

def AgreesAtUpdate (m : ServiceMove) : Prop :=
  ∀ u d name dob gender number, IsUpdate m u d name dob gender number → m.before.CacheAgrees u

/-- Every update in the history is made from a fresh cache, over a record that
holds the uid of its owner. -/
def FreshAtUpdates (h : ServiceHistory) : Prop :=
  ∀ newer m older u d name dob gender number, h = newer ++ m :: older →
    IsUpdate m u d name dob gender number → Fresh Key.carried u older ∧ d .mUserID = some u

theorem keepsOtherFields_iff {m : ServiceMove} (hm : machine.Fires m) :
    KeepsOtherFields m ↔ AgreesAtUpdate m := by
  have hiff : ∀ {u d name dob gender number}, IsUpdate m u d name dob gender number →
      (m.after.raised = none ∧
        m.after.users =
          Function.update m.before.users u (.dict (editedRecord d name dob gender number)) ↔
        m.before.CacheAgrees u) := by
    rintro u d name dob gender number ⟨⟨caller, t, img, he⟩, hu, hn, hd⟩
    have hs : m.before.step m.event = some (m.after, m.out) := hm
    rw [he] at hs
    obtain ⟨hr, hc⟩ := step_call hs
    have hh := updateDataWithName_iff hr hu hn hd name dob gender img number
    rw [show m.before.updateDataWithName name dob gender img number = (m.after, m.out) from hc]
      at hh
    exact hh
  constructor
  · intro hk u d name dob gender number hu
    exact (hiff hu).mp (hk u d name dob gender number hu)
  · intro ha u d name dob gender number hu
    exact (hiff hu).mpr (ha u d name dob gender number hu)

theorem agreesAtUpdate_of_fresh {s₀ s : Service} {h : ServiceHistory}
    (hr : machine.Run s₀ h s) (hf : FreshAtUpdates h) : ∀ m ∈ h, AgreesAtUpdate m := by
  intro m hm u d name dob gender number hu
  obtain ⟨newer, older, he⟩ := List.append_of_mem hm
  obtain ⟨hfresh, hid⟩ := hf newer m older u d name dob gender number he hu
  obtain ⟨p, hp, hc⟩ := hfresh.agrees (hr.before he)
  exact ⟨p, hp, hc, by rw [hu.2.2.1]; exact hid⟩

/-- In any run the updates keep the other fields exactly when the cache agrees
with the server at each of them, and they do when each is made from a fresh cache. -/
theorem updates_keep_other_fields {s₀ s : Service} {h : ServiceHistory}
    (hr : machine.Run s₀ h s) :
    ((∀ m ∈ h, KeepsOtherFields m) ↔ ∀ m ∈ h, AgreesAtUpdate m) ∧
      (FreshAtUpdates h → ∀ m ∈ h, KeepsOtherFields m) := by
  have hiff := hr.forall_iff (P := KeepsOtherFields) (Q := AgreesAtUpdate)
    fun _ hm => keepsOtherFields_iff hm
  exact ⟨hiff, fun hf => hiff.mpr (agreesAtUpdate_of_fresh hr hf)⟩

def fetchThenUpdate : List ServiceEvent :=
  [.call 1 "" .fetchData, .answer 0 (.fetched "u" (.dict (signupRecord "u"))), .complete 0 "",
    .call 1 "" (.updateDataWithName "An" "01/01/1990" "Nam" "" "0123")]

theorem fetchThenUpdate_keeps_other_fields :
    let r := (machine.exec [] (launch (some "u") ["u"]) fetchThenUpdate).get (by decide)
    machine.Run (launch (some "u") ["u"]) r.1 r.2 ∧ ∀ m ∈ r.1, KeepsOtherFields m := by
  intro r
  have hr : machine.Run (launch (some "u") ["u"]) r.1 r.2 := Machine.exec_run _
  refine ⟨hr, (updates_keep_other_fields hr).1.mpr ?_⟩
  refine List.forall_mem_cons.mpr ⟨?_, List.forall_mem_cons.mpr ⟨?_,
    List.forall_mem_cons.mpr ⟨?_, List.forall_mem_cons.mpr ⟨?_, by simp⟩⟩⟩⟩
  · rintro u d name dob gender number ⟨-, hu, -⟩
    obtain rfl : "u" = u := Option.some.inj hu
    exact ⟨transformUser (signupRecord "u"), rfl, by decide, rfl⟩
  all_goals
    rintro u d name dob gender number ⟨⟨_, _, _, he⟩, -⟩
    cases he

def friendsThenUpdate : List ServiceEvent :=
  [.call 1 "" .fetchData, .answer 0 (.fetched "u" (.dict (signupRecord "u"))), .complete 0 "",
    .call 2 "" .fetchAllData, .childAdded 0 "u", .childAdded 0 "v",
    .call 3 "" (.updateDataWithName "An" "01/01/1990" "Nam" "" "0123")]

theorem friendsThenUpdate_overwrites : ¬ ∀ s₀ h s, Launch s₀ → machine.Run s₀ h s →
    ∀ m ∈ h, KeepsOtherFields m := by
  intro hall
  let r := (machine.exec [] (launch (some "u") ["u", "v"]) friendsThenUpdate).get (by decide)
  have hr : machine.Run _ r.1 r.2 := Machine.exec_run _
  have hk := hall _ _ _ (launch_launch _ _) hr (r.1.head (by decide)) (List.head_mem _)
    "u" (signupRecord "u") "An" "01/01/1990" "Nam" "0123" ⟨⟨3, "", "", rfl⟩, rfl, rfl, by decide⟩
  have he := congrArg (fun f => (f "u").field .mUserEmail) hk.2
  exact absurd he (by decide)

end Service

end Mioto
