import Mathlib.Data.Nat.Digits.Defs
import Rqmd.Lib.Decimal
import Rqmd.Lib.Text

/-! The layers in front of the MCP server's routes. Every request is checked for its host first; only one whose host is on
the list goes on. -/

namespace Rqmd

/-! ### Hosts -/

/-- The host as typed, minus the brackets around an IPv6 literal. -/
def bareHost (host : String) : String :=
  match host.toList with
  | '[' :: inner => if inner.getLast? = some ']' then String.ofList inner.dropLast else host
  | _ => host

/-- The host as it stands in a URL. `parseV6` renders an IPv6 address in its canonical form. -/
def authorityHost (parseV6 : String → Option String) (host : String) : String :=
  match parseV6 (bareHost host) with
  | some ip => "[" ++ ip ++ "]"
  | none => bareHost host

def hostPort (parseV6 : String → Option String) (host : String) (port : Nat) : String :=
  authorityHost parseV6 host ++ ":" ++ String.ofList (Nat.toDigits 10 port)

/-- A `Host` header without its port. -/
def hostOnly (value : String) : String :=
  match Text.rsplitOnce ':' value.toList with
  | some (host, port) => if port ≠ [] ∧ port.all Char.isDigit then String.ofList host else value
  | none => value

/-- What the layers read of a request. A header that is not text is `some none`; the authority is without its port. -/
structure HttpRequest where
  hostHeader : Option (Option String)
  authority : Option String
  post : Bool
  path : String
deriving DecidableEq

def requestedHost (req : HttpRequest) : Option String :=
  match req.hostHeader with
  | some none => none
  | some (some value) =>
    match req.authority with
    | some authority => if hostOnly value ≠ authority then none else some (hostOnly value)
    | none => some (hostOnly value)
  | none => req.authority

/-- `enforce_host_allowlist`: whether the request goes on to the next layer. -/
def hostAllowed (allowedHosts : List String) (req : HttpRequest) : Bool :=
  ((requestedHost req).map fun host => allowedHosts.any (· == host)).getD false

/-- The list `run_http` makes for the host it serves. -/
def allowedHosts (parseV6 : String → Option String) (host : String) : List String :=
  if ["localhost", "127.0.0.1"].contains (authorityHost parseV6 host) then ["localhost", "127.0.0.1"]
  else ["localhost", "127.0.0.1"] ++ [authorityHost parseV6 host]

/-! ### What a header says -/

/-- A colon and a number behind it. -/
def IsPort (tail : String) : Prop :=
  ∃ digits, tail.toList = ':' :: digits ∧ digits ≠ [] ∧ ∀ c ∈ digits, c.isDigit = true

/-- The value is the host with a port behind it, or the host alone where that does not end like a port. -/
def Spells (value host : String) : Prop :=
  (∃ tail, IsPort tail ∧ value = host ++ tail) ∨ value = host ∧ ¬ ∃ front tail, IsPort tail ∧ host = front ++ tail

theorem colon_not_digit {digits : List Char} (all : ∀ c ∈ digits, c.isDigit = true) : ':' ∉ digits := fun colon =>
  absurd (all ':' colon) (by decide)

theorem hostOnly_port {host tail : String} (port : IsPort tail) : hostOnly (host ++ tail) = host := by
  obtain ⟨digits, shape, some, all⟩ := port
  have split : Text.rsplitOnce ':' (host ++ tail).toList = Option.some (host.toList, digits) := by
    rw [Text.rsplitOnce_some, String.toList_append, shape]
    exact ⟨rfl, colon_not_digit all⟩
  rw [hostOnly, split]
  dsimp only
  rw [if_pos ⟨some, List.all_eq_true.mpr all⟩, String.ofList_toList]

theorem hostOnly_eq_iff {value host : String} : hostOnly value = host ↔ Spells value host := by
  by_cases ported : ∃ front tail, IsPort tail ∧ value = front ++ tail
  · obtain ⟨front, tail, port, rfl⟩ := ported
    rw [hostOnly_port port]
    constructor
    · intro same
      exact .inl ⟨tail, port, by rw [same]⟩
    · intro spells
      rcases spells with ⟨other, also, same⟩ | ⟨same, bare⟩
      · have stripped := congrArg hostOnly same
        rwa [hostOnly_port port, hostOnly_port also] at stripped
      · exact absurd ⟨front, tail, port, same.symm⟩ bare
  · have whole : hostOnly value = value := by
      unfold hostOnly
      cases split : Text.rsplitOnce ':' value.toList with
      | none => rfl
      | some pieces =>
        obtain ⟨front, digits⟩ := pieces
        dsimp only
        rw [if_neg]
        intro port
        apply ported
        obtain ⟨shape, -⟩ := Text.rsplitOnce_some.mp split
        refine ⟨String.ofList front, String.ofList (':' :: digits), ⟨digits, String.toList_ofList, port.1,
          List.all_eq_true.mp port.2⟩, ?_⟩
        rw [← String.ofList_append, ← shape, String.ofList_toList]
    rw [whole]
    constructor
    · intro same
      exact .inr ⟨same, same ▸ ported⟩
    · intro spells
      rcases spells with ⟨tail, port, same⟩ | ⟨same, -⟩
      · exact absurd ⟨host, tail, port, same⟩ ported
      · exact same

/-! ### Who is let in -/

/-- The request names the host: in its header, in its authority or in both alike. -/
structure Addresses (req : HttpRequest) (host : String) : Prop where
  header : ∀ value, req.hostHeader = some value → ∃ text, value = some text ∧ Spells text host
  authority : ∀ other, req.authority = some other → other = host
  named : req.hostHeader ≠ none ∨ req.authority ≠ none

theorem requestedHost_eq_some {req : HttpRequest} {host : String} : requestedHost req = some host ↔
    Addresses req host := by
  obtain ⟨header, authority, post, path⟩ := req
  cases header with
  | none =>
    change authority = some host ↔ _
    constructor
    · intro same
      subst same
      refine ⟨?_, fun other found => (Option.some.inj found).symm, .inr (by simp)⟩
      intro _ found
      cases found
    · intro addresses
      cases authority with
      | none => exact absurd addresses.named (by simp)
      | some other => rw [addresses.authority other rfl]
  | some value =>
    cases value with
    | none =>
      constructor
      · intro none
        cases none
      · intro addresses
        obtain ⟨text, same, -⟩ := addresses.header none rfl
        cases same
    | some value =>
      have spelled : Addresses ⟨some (some value), authority, post, path⟩ host ↔
          hostOnly value = host ∧ ∀ other, authority = some other → other = host := by
        constructor
        · intro addresses
          obtain ⟨text, same, spells⟩ := addresses.header _ rfl
          obtain rfl := Option.some.inj same
          exact ⟨hostOnly_eq_iff.mpr spells, addresses.authority⟩
        · intro both
          refine ⟨fun found same => ?_, both.2, .inl (by simp)⟩
          obtain rfl := Option.some.inj same
          exact ⟨value, rfl, hostOnly_eq_iff.mp both.1⟩
      rw [spelled]
      cases authority with
      | none => simp [requestedHost]
      | some other =>
        by_cases agree : hostOnly value = other
        · simp [requestedHost, agree]
        · constructor
          · intro found
            simp [requestedHost, agree] at found
          · intro both
            exact absurd (both.1.trans (both.2 other rfl).symm) agree

/-- A request goes on exactly when it addresses a host of the list. -/
theorem hostAllowed_iff {hosts : List String} {req : HttpRequest} :
    hostAllowed hosts req = true ↔ ∃ host ∈ hosts, Addresses req host := by
  unfold hostAllowed
  cases named : requestedHost req with
  | none =>
    constructor
    · intro never
      cases never
    · intro some
      obtain ⟨host, -, addresses⟩ := some
      rw [requestedHost_eq_some.mpr addresses] at named
      cases named
  | some found =>
    simp only [Option.map_some, Option.getD_some, List.any_eq_true, beq_iff_eq, exists_eq_right]
    constructor
    · intro listed
      exact ⟨found, listed, requestedHost_eq_some.mp named⟩
    · intro some
      obtain ⟨host, listed, addresses⟩ := some
      rw [requestedHost_eq_some.mpr addresses, Option.some.injEq] at named
      rwa [← named]

theorem mem_allowedHosts {parseV6 : String → Option String} {host name : String} :
    name ∈ allowedHosts parseV6 host ↔ name = "localhost" ∨ name = "127.0.0.1" ∨ name = authorityHost parseV6 host := by
  unfold allowedHosts
  split
  · next known =>
    have among : authorityHost parseV6 host = "localhost" ∨ authorityHost parseV6 host = "127.0.0.1" := by
      simpa using known
    constructor
    · intro member
      simp only [List.mem_cons, List.not_mem_nil, or_false] at member
      exact member.imp_right .inl
    · intro either
      simp only [List.mem_cons, List.not_mem_nil, or_false]
      rcases either with first | second | own
      · exact .inl first
      · exact .inr second
      · exact among.imp own.trans own.trans
  · simp

theorem isPort_number (port : Nat) : IsPort (":" ++ String.ofList (Nat.toDigits 10 port)) := by
  refine ⟨Nat.toDigits 10 port, by simp, Nat.toDigits_ne_nil, fun c inside => ?_⟩
  exact Nat.isDigit_of_mem_toDigits (by decide) (by decide) inside

end Rqmd
