import Mathlib.Data.Fintype.Basic
import Mathlib.Logic.Function.Basic

/-! The user records: the ten keys, the dictionaries the app builds and reads,
the database nodes they are stored in, and `Profile`. -/

namespace Mioto

abbrev Uid := String

inductive Key
  | mUserDateOfBirth | mUserEmail | mUserGender | mUserID | mUserImgUrl
  | mUserName | mUserPhone | mUserJoinedDate | mFBLinking | mEmailLinking
  deriving DecidableEq, Repr

namespace Key

def all : List Key :=
  [mUserDateOfBirth, mUserEmail, mUserGender, mUserID, mUserImgUrl,
    mUserName, mUserPhone, mUserJoinedDate, mFBLinking, mEmailLinking]

instance : Fintype Key where
  elems := ⟨all, by decide⟩
  complete := by intro k; cases k <;> decide

end Key

/-- An `NSDictionary` of strings; a missing key reads as nil. -/
abbrev Dict := Key → Option String

/-- A dictionary literal with the ten keys. A nil value raises, which is `none`. -/
def dictionaryLiteral (value : Dict) : Option Dict :=
  if ∀ k, (value k).isSome then some value else none

theorem dictionaryLiteral_eq_some {value d : Dict} :
    dictionaryLiteral value = some d ↔ d = value ∧ ∀ k, (value k).isSome := by
  unfold dictionaryLiteral
  split_ifs with h
  · simp [h, eq_comm]
  · simp [h]

theorem dictionaryLiteral_eq_none {value : Dict} :
    dictionaryLiteral value = none ↔ ∃ k, value k = none := by
  unfold dictionaryLiteral
  split_ifs with h
  · simp only [false_iff, not_exists]
    intro k hk
    simpa [hk] using h k
  · simpa using h

inductive Node
  | null
  | leaf (value : String)
  | dict (d : Dict)
  deriving DecidableEq

namespace Node

def field : Node → Key → Option String
  | dict d, k => d k
  | _, _ => none

/-- A map without children is not stored. -/
def ofDict (d : Dict) : Node :=
  if ∀ k, d k = none then null else dict d

/-- `setValue:` on a child path: other children stay, a missing parent is made. -/
def setField (n : Node) (k : Key) (v : Option String) : Node :=
  ofDict (Function.update n.field k v)

@[simp] theorem field_null (k : Key) : field null k = none := rfl

@[simp] theorem field_leaf (x : String) (k : Key) : field (leaf x) k = none := rfl

@[simp] theorem field_dict (d : Dict) (k : Key) : field (dict d) k = d k := rfl

@[simp] theorem field_ofDict (d : Dict) : (ofDict d).field = d := by
  funext k
  unfold ofDict
  split_ifs with h
  · simp [h]
  · simp

@[simp] theorem field_setField (n : Node) (k : Key) (v : Option String) :
    (n.setField k v).field = Function.update n.field k v := by
  simp [setField]

theorem ofDict_of_isSome {d : Dict} {k : Key} (h : (d k).isSome) : ofDict d = dict d := by
  unfold ofDict
  rw [if_neg]
  intro hn
  simp [hn k] at h

end Node

structure Profile where
  mUserDateOfBirth : Option String
  mUserEmail : Option String
  mUserGender : Option String
  mUserID : Option String
  mUserImgUrl : Option String
  mUserName : Option String
  mUserPhone : Option String
  mUserJoinedDate : Option String
  mFBLinking : Option String
  mEmailLinking : Option String
  deriving DecidableEq

def transformUser (d : Dict) : Profile where
  mUserName := d .mUserName
  mUserEmail := d .mUserEmail
  mUserID := d .mUserID
  mUserImgUrl := d .mUserImgUrl
  mUserDateOfBirth := d .mUserDateOfBirth
  mUserGender := d .mUserGender
  mUserPhone := d .mUserPhone
  mUserJoinedDate := d .mUserJoinedDate
  mFBLinking := d .mFBLinking
  mEmailLinking := d .mEmailLinking

namespace Profile

def property (p : Profile) : Dict
  | .mUserDateOfBirth => p.mUserDateOfBirth
  | .mUserEmail => p.mUserEmail
  | .mUserGender => p.mUserGender
  | .mUserID => p.mUserID
  | .mUserImgUrl => p.mUserImgUrl
  | .mUserName => p.mUserName
  | .mUserPhone => p.mUserPhone
  | .mUserJoinedDate => p.mUserJoinedDate
  | .mFBLinking => p.mFBLinking
  | .mEmailLinking => p.mEmailLinking

end Profile

@[simp] theorem property_transformUser (d : Dict) : (transformUser d).property = d := by
  funext k
  cases k <;> rfl

end Mioto
