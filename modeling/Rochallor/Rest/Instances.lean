import Rochallor.Data.Fields
import Rochallor.Engine

/-! # Starting an instance over REST

    `POST /v1/instances` of `internal/api/rest/instances.go`.  The body is
    decoded into a `startRequest`, whose variables are a `map[string]any`, and
    a request that names a definition becomes a call of `Start`.
-/

namespace Rochallor

/-- `startRequest`. -/
structure StartRequest where
  definitionID : String := ""
  definitionVersion : Int := 0
  vars : GoMap Value := []
  businessKey : String := ""

def startFields : List (Field StartRequest) :=
  [.of "definitionId" decodeString (·.definitionID) fun r v => { r with definitionID := v },
    .of "definitionVersion" decodeInt (·.definitionVersion) fun r v =>
      { r with definitionVersion := v },
    .of "variables" (decodeMap Json.toValue) (·.vars) fun r v => { r with vars := v },
    .of "businessKey" decodeString (·.businessKey) fun r v => { r with businessKey := v }]

/-- The handler up to the call of the service: the operation, or the text it
    answers the request with as a bad one. -/
def startInstance (body : Json) : Except String Op :=
  match decodeStruct false startFields "rest.startRequest" {} body with
  | .error e => .error ("invalid request body: " ++ e)
  | .ok req =>
    if req.definitionID.isEmpty then .error "definitionId is required"
    else .ok (.start req.definitionID req.definitionVersion req.vars req.businessKey)

/-- The body submits the members as its variables.  Each field is there once at
    most, under its own spelling. -/
def Submits (body : Json) (ms : GoMap Json) : Prop :=
  ∃ members, body = .obj members ∧ Spelled (startFields.map (·.name)) members ∧
    GoMap.last members "variables" = some (.obj ms)

/-- Decoding into a `map[string]any` is decoding into an `any` that is a map. -/
theorem decodeEntries_toValue (m : GoMap Value) (ms : GoMap Json) :
    decodeEntries Json.toValue m ms = (toMembers ms).map (GoMap.overlay m) := by
  induction ms generalizing m with
  | nil => rfl
  | cons e rest ih =>
    obtain ⟨k, j⟩ := e
    rw [decodeEntries, toMembers]
    cases j.toValue with
    | error e => rfl
    | ok v =>
      show decodeEntries Json.toValue (GoMap.set m k v) rest = _
      rw [ih]
      cases toMembers rest <;> rfl

/-- What a request passes on for its variables. -/
theorem startInstance_variables {body : Json} {ms : GoMap Json} {op : Op}
    (h : startInstance body = .ok op) (hms : Submits body ms) :
    ∃ id version vs key, op = .start id version (GoMap.overlay [] vs) key ∧
      toMembers ms = .ok vs := by
  obtain ⟨members, rfl, hspelled, hlast⟩ := hms
  unfold startInstance at h
  split at h
  · cases h
  rename_i req hreq
  split at h
  · cases h
  cases h
  have hlens : Lens startFields "variables" (decodeMap Json.toValue) (·.vars)
      fun r v => { r with vars := v } :=
    ⟨by simp [startFields], fun _ _ => rfl, by simp [startFields, Field.of_frames]⟩
  have hreads := hlens.reads (.inr (by decide)) hspelled hreq
  have hvars : decodeEntries Json.toValue [] ms = .ok req.vars := hreads.present _ hlast
  rw [decodeEntries_toValue] at hvars
  cases hvs : toMembers ms with
  | error e =>
    rw [hvs] at hvars
    cases hvars
  | ok vs =>
    rw [hvs] at hvars
    have hmap : GoMap.overlay [] vs = req.vars := Except.ok.inj hvars
    exact ⟨_, _, vs, _, by rw [hmap], rfl⟩

end Rochallor
