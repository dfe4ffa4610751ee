import Mioto.ServiceFrame

/-! Whether a completion that arrives after the account has changed still acts
for the account that started it. -/

namespace Mioto

def Reply.starter : Reply → Option (Option Uid)
  | .fetched userID _ | .fetchCancelled userID => some (some userID)
  | .putData userID _ | .downloadURL userID _ => some userID
  | .linkedFacebook _ starter _ _ => some starter
  | .linkedEmail user _ => some (some user)
  | _ => none

/-- The block of the reply writes to the database or to the cache. -/
def Reply.effective (r : Reply) : Bool := r.writtenField.isSome || r.fetchedRecord.isSome

theorem Reply.writtenField_image {r : Reply} {v : Option String} {u : Option Uid}
    (h : r.writtenField = some (.mUserImgUrl, v)) (hs : r.starter = some u) :
    ∃ token, v = some (Service.storageURL u token) := by
  cases r <;> simp only [Reply.writtenField, reduceCtorEq] at h
  next userID token =>
    obtain rfl : userID = u := Option.some.inj hs
    cases token <;> simp at h
    next token => exact ⟨token, h.symm⟩
  next error => cases error <;> simp at h
  next error => cases error <;> simp at h

namespace Service

def starts (s : Service) : ServiceEvent → Option (Option Uid)
  | .complete k _ => (s.replies[k]?).bind (·.reply.starter)
  | _ => none

/-- The field a completion writes and the profile it caches are those of the
account that started its operation. -/
structure StaysWithStarter (m : ServiceMove) : Prop where
  field : ∀ uid k v, Effect.setField uid k v ∈ m.out →
    m.before.starts m.event = some (some uid)
  image : ∀ uid v, Effect.setField uid .mUserImgUrl v ∈ m.out →
    ∃ token, v = some (storageURL (some uid) token)
  profile : ∀ u d, m.before.fetches m.event = some (u, d) →
    m.after.currentUser = none ∨ m.after.currentUser = some u

/-- A completion that has something to write runs while its own account is signed
in, or nobody is. -/
def OwnSession (m : ServiceMove) : Prop :=
  ∀ k t w, m.event = .complete k t → m.before.replies[k]? = some w → w.reply.effective →
    m.before.currentUser = none ∨ w.reply.starter = some m.before.currentUser

theorem fetches_eq_some {s : Service} {e : ServiceEvent} {u : Uid} {d : Dict}
    (h : s.fetches e = some (u, d)) : ∃ k t w, e = .complete k t ∧ s.replies[k]? = some w ∧
      w.reply = .fetched u (.dict d) := by
  cases e <;> simp only [fetches, reduceCtorEq] at h
  next k t =>
    obtain ⟨w, hw, hx⟩ := Option.bind_eq_some_iff.mp h
    refine ⟨k, t, w, rfl, hw, ?_⟩
    cases hq : w.reply <;> simp only [hq, Reply.fetchedRecord, reduceCtorEq] at hx
    next n => cases n <;> simp_all

theorem currentUser_of_fetches {s s' : Service} {e : ServiceEvent} {o : List Effect}
    (h : s.step e = some (s', o)) {u : Uid} {d : Dict} (hf : s.fetches e = some (u, d)) :
    s'.currentUser = s.currentUser := by
  obtain ⟨k, t, w, rfl, hw, hq⟩ := fetches_eq_some hf
  obtain ⟨-, w', hw', he⟩ := step_complete h
  obtain rfl : w = w' := by simpa [hw] using hw'
  rw [← show _ = s' from congrArg Prod.fst he]
  simp [complete, hq, completion, send]

theorem staysWithStarter_iff {m : ServiceMove} (hm : machine.Fires m) :
    StaysWithStarter m ↔ OwnSession m := by
  obtain ⟨s, e, s', o⟩ := m
  have hf : s.step e = some (s', o) := hm
  constructor
  · intro hs k t w he hw heff
    obtain rfl : e = .complete k t := he
    change s.replies[k]? = some w at hw
    change s.currentUser = none ∨ w.reply.starter = some s.currentUser
    cases hu : s.currentUser with
    | none => exact .inl rfl
    | some uid =>
      refine .inr ?_
      rw [Reply.effective, Bool.or_eq_true] at heff
      rcases heff with heff | heff
      · obtain ⟨⟨f, v⟩, hx⟩ := Option.isSome_iff_exists.mp heff
        have hmem : Effect.setField uid f v ∈ o :=
          (setField_mem_out hf).mpr ⟨hu, by simp [writes, hw, hx]⟩
        simpa [starts, hw] using hs.field uid f v hmem
      · obtain ⟨⟨u, d⟩, hx⟩ := Option.isSome_iff_exists.mp heff
        have hx : s.fetches (.complete k t) = some (u, d) := by simp [fetches, hw, hx]
        have hp := hs.profile u d hx
        rw [show s'.currentUser = some uid from (currentUser_of_fetches hf hx).trans hu] at hp
        obtain ⟨_, _, w', he, hw', hq⟩ := fetches_eq_some hx
        cases he
        obtain rfl : w = w' := by simpa [hw] using hw'
        simp only [reduceCtorEq, false_or, Option.some.injEq] at hp
        simp [hq, Reply.starter, hp]
  · intro hown
    have hstart : ∀ uid f v, Effect.setField uid f v ∈ o → ∃ k t w, e = .complete k t ∧
        s.replies[k]? = some w ∧ w.reply.writtenField = some (f, v) ∧
        w.reply.starter = some (some uid) := by
      intro uid f v hmem
      obtain ⟨hu, hx⟩ := (setField_mem_out hf).mp hmem
      obtain ⟨k, t, w, rfl, hw, hx⟩ := writes_eq_some hx
      refine ⟨k, t, w, rfl, hw, hx, ?_⟩
      have ho := hown k t w rfl hw (by simp [Reply.effective, hx])
      simpa [hu] using ho
    refine ⟨?_, ?_, ?_⟩
    · intro uid f v hmem
      obtain ⟨k, t, w, rfl, hw, -, hst⟩ := hstart uid f v hmem
      simp [starts, hw, hst]
    · intro uid v hmem
      obtain ⟨k, t, w, rfl, hw, hx, hst⟩ := hstart uid _ v hmem
      exact Reply.writtenField_image hx hst
    · intro u d hx
      change s'.currentUser = none ∨ s'.currentUser = some u
      rw [currentUser_of_fetches hf hx]
      obtain ⟨k, t, w, rfl, hw, hq⟩ := fetches_eq_some hx
      have ho := hown k t w rfl hw (by simp [Reply.effective, hq, Reply.fetchedRecord])
      rw [hq] at ho
      simpa [Reply.starter, eq_comm] using ho

/-- In every run, completions act for the accounts that started them exactly when
each that writes arrives in its own account's session, or in nobody's. -/
theorem completions_stay_with_starter_iff {s₀ s : Service} {h : ServiceHistory}
    (hr : machine.Run s₀ h s) :
    (∀ m ∈ h, StaysWithStarter m) ↔ ∀ m ∈ h, OwnSession m :=
  hr.forall_iff fun _ hm => staysWithStarter_iff hm

def uploadAround (es : List ServiceEvent) : List ServiceEvent :=
  [.call 1 "" (.uploadProfileImage "image"), .answer 0 (.putData (some "u") false), .complete 0 "",
    .answer 0 (.downloadURL (some "u") (some "t"))] ++ es ++ [.complete 0 ""]

theorem upload_stays_with_starter :
    let r := (machine.exec [] (launch (some "u") []) (uploadAround [])).get (by decide)
    machine.Run (launch (some "u") []) r.1 r.2 ∧ ∀ m ∈ r.1, StaysWithStarter m := by
  intro r
  have hr : machine.Run (launch (some "u") []) r.1 r.2 := Machine.exec_run _
  refine ⟨hr, (completions_stay_with_starter_iff hr).mpr ?_⟩
  refine List.forall_mem_cons.mpr ⟨?_, List.forall_mem_cons.mpr ⟨?_, List.forall_mem_cons.mpr ⟨?_,
    List.forall_mem_cons.mpr ⟨?_, List.forall_mem_cons.mpr ⟨?_, by simp⟩⟩⟩⟩⟩ <;>
    rintro k t w he hw - <;> cases he <;> obtain rfl := Option.some.inj hw <;>
    exact .inr rfl

theorem upload_after_switch_leaves_starter : ¬ ∀ s₀ h s, Launch s₀ → machine.Run s₀ h s →
    ∀ m ∈ h, StaysWithStarter m := by
  intro hall
  let r := (machine.exec [] (launch (some "u") []) (uploadAround
    [.call 1 "" (.logout true), .call 2 "" (.signinWithEmail "v@mail.com" "secret"),
      .answer 0 (.signedIn (some "v")), .complete 1 ""])).get (by decide)
  have hr : machine.Run _ r.1 r.2 := Machine.exec_run _
  have hs := hall _ _ _ (launch_launch _ _) hr (r.1.head (by decide)) (List.head_mem _)
  exact absurd (hs.field "v" .mUserImgUrl (some (storageURL (some "u") "t")) (by decide))
    (by decide)

end Service

end Mioto
