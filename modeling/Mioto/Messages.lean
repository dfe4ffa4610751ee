import Mioto.ServiceFrame

/-! Which message a service step sends, read off the state before it. -/

namespace Mioto

def Effect.message : Effect → Option Message
  | .send m => some m
  | _ => none

/-- The message that a completion block ends with, if it gets there. -/
def Reply.announced (s : Service) : Reply → Option Message
  | .fetched _ (.dict _) => some (.profileDataRecieved 1)
  | .fetchCancelled _ => some (.profileDataRecieved 0)
  | .putData _ true => some (.uploadProfileImageStatus 0)
  | .downloadURL _ (some _) =>
    if s.currentUser.isSome then some (.uploadProfileImageStatus 1) else none
  | .signedInFacebook true _ => some (.loginFbWithStatus 1)
  | .signedInFacebook false none => some (.loginFbWithStatus (-1))
  | .signedInFacebook false (some user) =>
    if s.currentUser.isSome ∧ user.email.isSome ∧ user.displayName.isSome ∧ user.photoURL.isSome
    then some (.loginFbWithStatus 1) else none
  | .linkedFacebook _ _ _ true => some (.linkingFBStatus 0)
  | .linkedFacebook _ _ _ false =>
    if s.currentUser.isSome then some (.linkingFBStatus 1) else none
  | .linkedEmail _ true => some (.linkingGGStatus 0)
  | .linkedEmail _ false => if s.currentUser.isSome then some (.linkingGGStatus 1) else none
  | .createdUser _ _ result => some (.authStatus (if result.isNone then 0 else 1))
  | .signedIn result => some (.authStatus (if result.isNone then 0 else 1))
  | .resetSent error => some (.authStatus (if error then 0 else 1))
  | _ => none

def Reply.answersAuth : Reply → Bool
  | .createdUser .. | .signedIn _ | .resetSent _ => true
  | _ => false

def Message.isAuthStatus : Message → Bool
  | .authStatus _ => true
  | _ => false

theorem Reply.isAuthStatus_of_announced {s : Service} {r : Reply} {m : Message}
    (h : r.announced s = some m) : m.isAuthStatus = r.answersAuth := by
  unfold Reply.announced at h
  split at h <;> (try split_ifs at h) <;> cases h <;> rfl

namespace Service

def announced (s : Service) : ServiceEvent → Option Message
  | .call _ _ (.logout keychain) =>
    some (.authStatus (if s.currentUser.isSome && !keychain then 0 else 1))
  | .complete k _ => (s.replies[k]?).bind (·.reply.announced s)
  | .dialog k .error =>
    match (s.pending[k]?).map Pending.request with
    | some .loginDialog | some (.linkDialog _) => some (.loginFbWithStatus 0)
    | _ => none
  | .childAdded o v =>
    (s.reports (.childAdded o v)).map fun d => .successProfileWith (transformUser d)
  | _ => none

theorem announced_dialog {s : Service} {k : Nat} {q : DialogResult} {m : Message}
    (h : s.announced (.dialog k q) = some m) : m = .loginFbWithStatus 0 := by
  cases q <;> simp only [announced, reduceCtorEq] at h
  split at h <;> cases h <;> rfl

/-- `r` sends `m` and nothing else, and is not the end of the process if it does. -/
def Sends (r : Done) (m : Option Message) : Prop :=
  r.2.filterMap Effect.message = m.toList ∧ (m.isSome → r.1.raised = none)

theorem sends_none {r : Done} (h : r.2.filterMap Effect.message = []) : Sends r none :=
  ⟨h, by simp⟩

theorem Called.sends {s : Service} {i : ScreenId} {t : String} {c : Call} {r : Done}
    (h : Called s i t c r) (hs : s.raised = none) : Sends r (s.announced (.call i t c)) := by
  cases h with
  | notLoggedOut hk | loggedOut hk =>
    simp only [announced, hk]
    exact ⟨rfl, fun _ => hs⟩
  | _ => exact sends_none rfl

theorem Completed.sends {s : Service} {t : String} {i : ScreenId} {q : Reply} {r : Done}
    (h : Completed s t i q r) (hs : s.raised = none) : Sends r (q.announced s) := by
  cases h with
  | @notDictionary u n hn =>
    cases n with
    | dict d => exact absurd rfl (hn d)
    | null | leaf => exact sends_none rfl
  | imageUnsaved hu | fbUnlinked hu | ggUnlinked hu =>
    simpa [Reply.announced, hu] using sends_none rfl
  | imageSaved hu | fbLinked hu | ggLinked hu =>
    simp only [Reply.announced, hu, Option.isSome_some, if_true]
    exact ⟨rfl, fun _ => hs⟩
  | unregistered x hn =>
    rw [Reply.announced, if_neg hn]
    exact sends_none rfl
  | registered hu hd hc =>
    rw [Reply.announced, if_pos ⟨by simp [hu], hc⟩]
    exact ⟨rfl, fun _ => hs⟩
  | put | noURL | graphFailed | noEmail | emailFound | providers => exact sends_none rfl
  | _ => exact ⟨rfl, fun _ => hs⟩

theorem step_announced {s : Service} {e : ServiceEvent} {r : Done} (h : s.step e = some r) :
    Sends r (s.announced e) := by
  obtain ⟨hs, hc⟩ := stepped h
  cases hc with
  | called hc => exact hc.sends hs
  | @completed k t w r hw hc =>
    have hq : w.reply.announced { s with replies := s.replies.eraseIdx k } =
        w.reply.announced s := by
      unfold Reply.announced
      split <;> rfl
    have hh := hc.sends hs
    rw [hq] at hh
    simpa [announced, hw] using hh
  | closed hp hc =>
    generalize hq : Pending.request _ = q at hc
    cases hc with
    | loginError | linkError => simpa [announced, hp, hq] using ⟨rfl, fun _ => hs⟩
    | _ => exact sends_none rfl
  | @told o v ob r hob _ _ hc =>
    simp only [announced, reports, hob]
    generalize s.users v = n at hc
    cases hc with
    | accepted ha =>
      simp only [ha, if_true]
      exact ⟨rfl, fun _ => hs⟩
    | ignored ha => simpa [ha] using sends_none rfl
    | notDictionary hn =>
      cases n with
      | dict d => exact absurd rfl (hn d)
      | null | leaf => exact sends_none rfl
  | answered | refused | remoteRecord | remoteField => exact sends_none rfl

end Service

end Mioto
