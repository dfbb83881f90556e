import Roomie.ProtocolMessages

/-!
# Validation of the strings of a `Hello`

`server::validation`: the checks run in the order of the source, and the first that fails
names the field it is about.
-/

namespace Roomie

def maxAppKeyLen : ℕ := 256
def maxRoomCodeLen : ℕ := 32
def maxClientHashLen : ℕ := 256
def maxDisplayNameLen : ℕ := 64
def maxAuthTokenLen : ℕ := 256
def maxPasswordLen : ℕ := 128

/-- An optional field is too long when it is given and exceeds its bound. -/
def tooLong (bound : ℕ) (field : Option String) : Bool := field.any fun s => bound < byteLen s

def validateHello (appKey : String) (roomCodeLen : ℕ) (clientHash : String)
    (displayName authToken password : Option String) : Except String Unit :=
  if appKey.isEmpty then .error "app_key is required"
  else if maxAppKeyLen < byteLen appKey then .error "app_key too long"
  else if maxRoomCodeLen < roomCodeLen then .error "room_code too long"
  else if clientHash.isEmpty then .error "client_hash is required"
  else if maxClientHashLen < byteLen clientHash then .error "client_hash too long"
  else if tooLong maxDisplayNameLen displayName then .error "display_name too long"
  else if tooLong maxAuthTokenLen authToken then .error "auth_token too long"
  else if tooLong maxPasswordLen password then .error "password too long"
  else .ok ()

/-- The check of a whole `Hello`, as `dispatch` makes it. -/
def Hello.validate (h : Hello) : Except String Unit :=
  validateHello h.appKey (byteLen h.roomCode.str) h.clientHash h.displayName h.authToken h.password

/-- What the validation promises about a `Hello` it lets through. -/
structure Hello.Valid (h : Hello) : Prop where
  appKey_ne : h.appKey.isEmpty = false
  appKey_len : byteLen h.appKey ≤ maxAppKeyLen
  roomCode_len : byteLen h.roomCode.str ≤ maxRoomCodeLen
  clientHash_ne : h.clientHash.isEmpty = false
  clientHash_len : byteLen h.clientHash ≤ maxClientHashLen
  displayName_len : ∀ s, h.displayName = some s → byteLen s ≤ maxDisplayNameLen
  authToken_len : ∀ s, h.authToken = some s → byteLen s ≤ maxAuthTokenLen
  password_len : ∀ s, h.password = some s → byteLen s ≤ maxPasswordLen

theorem tooLong_eq_false {bound : ℕ} {field : Option String} :
    tooLong bound field = false ↔ ∀ s, field = some s → byteLen s ≤ bound := by
  cases field <;> simp [tooLong]

theorem Hello.validate_ok {h : Hello} : h.validate = .ok () ↔ h.Valid := by
  constructor
  · intro hv
    unfold validate validateHello at hv
    split_ifs at hv with h₁ h₂ h₃ h₄ h₅ h₆ h₇ h₈
    exact ⟨by simpa using h₁, by omega, by omega, by simpa using h₄, by omega,
      tooLong_eq_false.mp (by simpa using h₆), tooLong_eq_false.mp (by simpa using h₇),
      tooLong_eq_false.mp (by simpa using h₈)⟩
  · intro hv
    have h₆ := tooLong_eq_false.mpr hv.displayName_len
    have h₇ := tooLong_eq_false.mpr hv.authToken_len
    have h₈ := tooLong_eq_false.mpr hv.password_len
    simp [validate, validateHello, hv.appKey_ne, hv.clientHash_ne, h₆, h₇, h₈,
      Nat.not_lt.mpr hv.appKey_len, Nat.not_lt.mpr hv.roomCode_len,
      Nat.not_lt.mpr hv.clientHash_len]

theorem Hello.validate_error {h : Hello} {message : String} (hv : h.validate = .error message) :
    message ∈ errorTexts := by
  unfold validate validateHello at hv
  split_ifs at hv <;> obtain rfl := Except.error.inj hv <;> simp [errorTexts]

end Roomie
