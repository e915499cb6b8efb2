import Obz.Foundation.SeparatedFields
import Obz.Transport.Platforms
import Mathlib.Data.List.TakeWhile

/-!
# Endpoints and native addresses

A `std::string` holds any bytes, a NUL among them. The native parser gets a
pointer and reads up to the first NUL, so it may see less than the whole host.
The parser and the other native functions are parameters; what is asked of them
is what their documentation says.
-/
namespace Obz.Transport.Addresses

open Foundation

abbrev Bytes := List UInt8

def ascii (text : String) : Bytes := text.toList.map fun c => UInt8.ofNat c.toNat

/-- What a function that takes a C string sees of the bytes from the pointer on. -/
def cString (bytes : Bytes) : Bytes := bytes.takeWhile (· ≠ 0)

/-! ### Dotted decimal text -/

def octetText (octet : Fin 256) : Bytes := ascii (toString octet.val)

/-- The octets of an address in the order in which they are stored. -/
structure InAddr where
  first : Fin 256
  second : Fin 256
  third : Fin 256
  fourth : Fin 256
  deriving DecidableEq, Repr

def InAddr.octets (address : InAddr) : List (Fin 256) :=
  [address.first, address.second, address.third, address.fourth]

/-- `ntohl` of the stored octets. -/
def InAddr.hostOrder (address : InAddr) : BitVec 32 :=
  BitVec.ofNat 32 (address.octets.foldl (fun value octet => 256 * value + octet.val) 0)

/-- The number that digits stand for. -/
def decimalValue (digits : Bytes) : ℕ :=
  digits.foldl (fun value digit => 10 * value + (digit.toNat - 48)) 0

theorem decimalValue_octetText : ∀ octet : Fin 256, decimalValue (octetText octet) = octet := by
  decide +kernel

/-- No digit comes before the digit zero. -/
theorem le_of_mem_octetText (octet : Fin 256) {b : UInt8} (h : b ∈ octetText octet) :
    48 ≤ b.toNat := by
  have hall : ∀ octet : Fin 256, (octetText octet).all fun b => 48 ≤ b.toNat := by
    decide +kernel
  exact of_decide_eq_true (List.all_eq_true.mp (hall octet) b h)

theorem octetText_injective : Function.Injective octetText := by
  intro octet octet' h
  have hvalue := congrArg decimalValue h
  rw [decimalValue_octetText, decimalValue_octetText] at hvalue
  exact Fin.ext hvalue

/-- The octet that a text stands for. -/
def findOctet (s : Bytes) : Option (Fin 256) :=
  (List.finRange 256).find? fun octet => s = octetText octet

theorem findOctet_eq_some (s : Bytes) (octet : Fin 256) :
    findOctet s = some octet ↔ s = octetText octet := by
  constructor
  · intro h
    simpa using List.find?_some h
  · rintro rfl
    cases h : findOctet (octetText octet) with
    | none =>
      have habsent := List.find?_eq_none.mp h octet (List.mem_finRange octet)
      simp at habsent
    | some found =>
      have hsame : octetText octet = octetText found := by simpa using List.find?_some h
      rw [octetText_injective hsame]

/-- Octets in decimal, between dots. -/
def octetFormat : FieldFormat UInt8 (Fin 256) where
  separator := 46
  text := octetText
  find := findOctet
  free octet h := absurd (le_of_mem_octetText octet h) (by decide)
  find_eq_some := findOctet_eq_some

def dottedDecimal (address : InAddr) : Bytes := octetFormat.print address.octets

/-- No digit and no dot is a NUL. -/
theorem nul_notMem_dottedDecimal (address : InAddr) : (0 : UInt8) ∉ dottedDecimal address := by
  refine octetFormat.notMem_print (by decide) ?_ _
  intro octet h
  exact absurd (le_of_mem_octetText octet h) (by decide)

/-! ### The native functions -/

/-- What the platform layer takes from the system to convert addresses. `inet_pton` gets the
bytes from its pointer on; `wsaStartup` is the result of `WSAStartup`. -/
structure NativeAddresses where
  inetPton : Bytes → Option InAddr
  inetNtop : InAddr → Option Bytes
  htons : BitVec 16 → BitVec 16
  ntohs : BitVec 16 → BitVec 16
  wsaStartup : ℕ
  lastError : ℕ
  inetPton_eq_some : ∀ bytes address,
    inetPton bytes = some address ↔ cString bytes = dottedDecimal address
  inetNtop_eq : ∀ address, inetNtop address = some (dottedDecimal address)
  ntohs_htons : ∀ port, ntohs (htons port) = port
  htons_ntohs : ∀ port, htons (ntohs port) = port

/-- `std::generic_category()` or `std::system_category()` -/
inductive ErrorCategory where
  | generic
  | system
  deriving DecidableEq, Repr

inductive AddressError where
  | invalidArgument (what : Bytes)
  | systemError (code : ℕ) (category : ErrorCategory) (what : Bytes)
  deriving DecidableEq, Repr

structure Endpoint where
  host : Bytes
  port : BitVec 16 := 0
  deriving DecidableEq, Repr

/-- `AF_INET` -/
def afInet : ℕ := 2

structure SockaddrIn where
  sinFamily : ℕ
  sinPort : BitVec 16
  sinAddr : InAddr
  deriving DecidableEq, Repr

structure IpMreq where
  imrMultiaddr : InAddr
  imrInterface : InAddr
  deriving DecidableEq, Repr

variable (platform : Platform) (native : NativeAddresses)

/-- The category in which the backend reports the error codes of its native calls. -/
def errorCategory : Platform → ErrorCategory
  | .posix => .generic
  | .winsock => .system

def socketError (errorCode : ℕ) (message : Bytes) : AddressError :=
  .systemError errorCode (errorCategory platform) message

def ensureWinsockStarted : Except AddressError Unit :=
  if native.wsaStartup ≠ 0 then
    .error (.systemError native.wsaStartup .system (ascii "failed to start Winsock"))
  else .ok ()

/-- What comes before the conversion. -/
def start : Except AddressError Unit :=
  match platform with
  | .posix => .ok ()
  | .winsock => ensureWinsockStarted native

/-- `c_str()` points at the bytes of the host and a NUL behind them. -/
def toSockaddrIn (value : Endpoint) : Except AddressError SockaddrIn := do
  start platform native
  match native.inetPton (value.host ++ [0]) with
  | none => .error (.invalidArgument (ascii "invalid IPv4 endpoint host: " ++ value.host))
  | some sinAddr => .ok ⟨afInet, native.htons value.port, sinAddr⟩

def fromSockaddrIn (address : SockaddrIn) : Except AddressError Endpoint :=
  match native.inetNtop address.sinAddr with
  | none =>
    .error (socketError platform native.lastError
      (ascii "failed to convert IPv4 address to text"))
  | some host => .ok ⟨cString (host ++ [0]), native.ntohs address.sinPort⟩

def multicastRequest (groupAddress interfaceAddress : Bytes) : Except AddressError IpMreq :=
  if 0 ∈ groupAddress ∨ 0 ∈ interfaceAddress then
    .error (.invalidArgument (ascii "multicast addresses must not contain embedded NULs"))
  else do
    let imrMultiaddr := (← toSockaddrIn platform native ⟨groupAddress, 0⟩).sinAddr
    let imrInterface := (← toSockaddrIn platform native ⟨interfaceAddress, 0⟩).sinAddr
    let group := imrMultiaddr.hostOrder
    if group &&& 0xf0000000#32 ≠ 0xe0000000#32 then
      .error (.invalidArgument (ascii "group address must be an IPv4 multicast address"))
    else
      let interfaceHost := imrInterface.hostOrder
      if interfaceHost ≠ 0 ∧
          (interfaceHost &&& 0xff000000#32 = 0 ∨ interfaceHost ≥ 0xe0000000#32) then
        .error (.invalidArgument
          (ascii "interface address must be a local unicast IPv4 address or 0.0.0.0"))
      else .ok ⟨imrMultiaddr, imrInterface⟩

/-! ### The functions that take an endpoint -/

variable {ρ : Type}

/-- The result of a native call, or the error code it has set. -/
def checked (failure : Bytes) : Except ℕ ρ → Except AddressError ρ
  | .error code => .error (socketError platform code failure)
  | .ok result => .ok result

def Endpoint.text (value : Endpoint) : Bytes :=
  value.host ++ ascii ":" ++ ascii (toString value.port.toNat)

def connectSocket (remoteEndpoint : Endpoint) (connect : SockaddrIn → Except ℕ Unit) :
    Except AddressError Unit := do
  let address ← toSockaddrIn platform native remoteEndpoint
  checked platform (ascii "failed to connect to " ++ remoteEndpoint.text) (connect address)

/-- Called by `bind` and by `listen`. -/
def bindSocket (localEndpoint : Endpoint) (bind : SockaddrIn → Except ℕ Unit) :
    Except AddressError Unit := do
  let address ← toSockaddrIn platform native localEndpoint
  checked platform (ascii "failed to bind socket to " ++ localEndpoint.text) (bind address)

/-- Called by `send_to`. -/
def sendUdp (remoteEndpoint : Endpoint) (data : Bytes)
    (sendto : Bytes → SockaddrIn → Except ℕ ℕ) : Except AddressError ℕ := do
  let address ← toSockaddrIn platform native remoteEndpoint
  match platform.nativeSize data.length with
  | .error _ =>
    .error (.invalidArgument (ascii "socket operation size exceeds Winsock limit"))
  | .ok _ => checked platform (ascii "failed to send UDP datagram") (sendto data address)

/-! ### What is accepted -/

theorem cString_eq_self {bytes : Bytes} (h : 0 ∉ bytes) : cString bytes = bytes := by
  refine List.takeWhile_eq_self_iff.mpr fun b hb => ?_
  simp only [ne_eq, decide_eq_true_eq]
  rintro rfl
  exact h hb

/-- The NUL behind the string ends it, if none comes earlier. -/
theorem cString_terminated (bytes : Bytes) : cString (bytes ++ [0]) = cString bytes := by
  induction bytes with
  | nil => rfl
  | cons b bytes ih =>
    by_cases hb : b = 0
    · simp [cString, hb]
    · simpa [cString, hb] using ih

/-- Nothing fails before the conversion. -/
def Started : Prop := platform = .winsock → native.wsaStartup = 0

variable {platform native}

theorem start_eq_ok : start platform native = .ok () ↔ Started platform native := by
  cases platform with
  | posix => simp [start, Started]
  | winsock => simp [start, Started, ensureWinsockStarted]

/-- What is accepted depends on the host up to its first NUL. -/
theorem toSockaddrIn_eq_ok {value : Endpoint} {address : SockaddrIn} :
    toSockaddrIn platform native value = .ok address ↔
      Started platform native ∧ ∃ a, cString value.host = dottedDecimal a ∧
        address = ⟨afInet, native.htons value.port, a⟩ := by
  have hread : ∀ a, native.inetPton (value.host ++ [0]) = some a ↔
      cString value.host = dottedDecimal a := by
    intro a
    rw [native.inetPton_eq_some, cString_terminated]
  rw [← start_eq_ok, toSockaddrIn]
  simp only [← hread]
  cases start platform native with
  | error e => simp [bind, Except.bind]
  | ok _ =>
    cases native.inetPton (value.host ++ [0]) with
    | none => simp [bind, Except.bind]
    | some a => simp [bind, Except.bind, eq_comm]

theorem fromSockaddrIn_eq (family : ℕ) (port : BitVec 16) (a : InAddr) :
    fromSockaddrIn platform native ⟨family, native.htons port, a⟩ =
      .ok ⟨dottedDecimal a, port⟩ := by
  rw [fromSockaddrIn, native.inetNtop_eq]
  simp only [native.ntohs_htons, cString_terminated,
    cString_eq_self (nul_notMem_dottedDecimal a)]

/-- A call on an endpoint returns only if the endpoint is accepted. -/
theorem accepted_of_bind {value : Endpoint} {use : SockaddrIn → Except AddressError ρ}
    {result : ρ} (h : (toSockaddrIn platform native value >>= use) = .ok result) :
    ∃ address, toSockaddrIn platform native value = .ok address := by
  cases haddress : toSockaddrIn platform native value with
  | error e =>
    rw [haddress] at h
    cases h
  | ok address => exact ⟨address, rfl⟩

variable (platform native)

/-- The endpoint is not accepted, or what is accepted is the endpoint. -/
def RoundTrips (value : Endpoint) : Prop :=
  ∀ address, toSockaddrIn platform native value = .ok address →
    fromSockaddrIn platform native address = .ok value

/-- The endpoint is not accepted, or its whole host is an address. -/
def AcceptsWhole (value : Endpoint) : Prop :=
  ∀ address, toSockaddrIn platform native value = .ok address → ∃ a, value.host = dottedDecimal a

/-- What stands before the first NUL is an address, and addresses can be converted. -/
def SeesAddress (value : Endpoint) : Prop :=
  Started platform native ∧ ∃ a, cString value.host = dottedDecimal a

variable {platform native}

theorem roundTrips_iff_acceptsWhole {value : Endpoint} :
    RoundTrips platform native value ↔ AcceptsWhole platform native value := by
  constructor
  · intro h address haddress
    obtain ⟨-, a, -, rfl⟩ := toSockaddrIn_eq_ok.mp haddress
    have hback := h _ haddress
    rw [fromSockaddrIn_eq] at hback
    exact ⟨a, (congrArg Endpoint.host (Except.ok.inj hback)).symm⟩
  · intro h address haddress
    obtain ⟨a, hhost⟩ := h address haddress
    obtain ⟨-, b, hb, rfl⟩ := toSockaddrIn_eq_ok.mp haddress
    rw [hhost, cString_eq_self (nul_notMem_dottedDecimal a), ← hhost] at hb
    rw [fromSockaddrIn_eq, ← hb]

theorem acceptsWhole_iff {value : Endpoint} :
    AcceptsWhole platform native value ↔
      (0 ∈ value.host → ¬ SeesAddress platform native value) := by
  constructor
  · rintro h hnul ⟨hstarted, a, ha⟩
    obtain ⟨b, hhost⟩ := h _ (toSockaddrIn_eq_ok.mpr ⟨hstarted, a, ha, rfl⟩)
    rw [hhost] at hnul
    exact nul_notMem_dottedDecimal b hnul
  · intro h address haddress
    obtain ⟨hstarted, a, ha, -⟩ := toSockaddrIn_eq_ok.mp haddress
    have hfree : 0 ∉ value.host := fun hnul => h hnul ⟨hstarted, a, ha⟩
    exact ⟨a, (cString_eq_self hfree).symm.trans ha⟩

/-- `multicast_request` accepts two whole addresses and nothing else. -/
theorem multicastRequest_accepts {group interface : Bytes} {request : IpMreq}
    (h : multicastRequest platform native group interface = .ok request) :
    group = dottedDecimal request.imrMultiaddr ∧
      interface = dottedDecimal request.imrInterface := by
  unfold multicastRequest at h
  split_ifs at h with hnul
  obtain ⟨hgroup, hinterface⟩ := not_or.mp hnul
  cases hg : toSockaddrIn platform native ⟨group, 0⟩ with
  | error e =>
    rw [hg] at h
    cases h
  | ok g =>
    cases hi : toSockaddrIn platform native ⟨interface, 0⟩ with
    | error e =>
      rw [hg, hi] at h
      cases h
    | ok i =>
      rw [hg, hi] at h
      simp only [bind, Except.bind] at h
      split_ifs at h
      cases h
      obtain ⟨-, a, ha, rfl⟩ := toSockaddrIn_eq_ok.mp hg
      obtain ⟨-, b, hb, rfl⟩ := toSockaddrIn_eq_ok.mp hi
      exact ⟨(cString_eq_self hgroup).symm.trans ha, (cString_eq_self hinterface).symm.trans hb⟩

/-- An endpoint that any of the calls accepts comes back from its native address as it was,
and its whole host is an address, exactly if its host has no NUL behind an address; the
multicast calls, which look for a NUL first, accept whole addresses only. -/
theorem endpoints_round_trip_iff (platform : Platform) (native : NativeAddresses)
    (value : Endpoint) :
    (RoundTrips platform native value ↔
      (0 ∈ value.host → ¬ SeesAddress platform native value)) ∧
    (AcceptsWhole platform native value ↔
      (0 ∈ value.host → ¬ SeesAddress platform native value)) ∧
    (∀ connect, connectSocket platform native value connect = .ok () →
      ∃ address, toSockaddrIn platform native value = .ok address) ∧
    (∀ bind, bindSocket platform native value bind = .ok () →
      ∃ address, toSockaddrIn platform native value = .ok address) ∧
    (∀ data sendto sent, sendUdp platform native value data sendto = .ok sent →
      ∃ address, toSockaddrIn platform native value = .ok address) ∧
    ∀ group interface request, multicastRequest platform native group interface = .ok request →
      group = dottedDecimal request.imrMultiaddr ∧
        interface = dottedDecimal request.imrInterface := by
  refine ⟨roundTrips_iff_acceptsWhole.trans acceptsWhole_iff, acceptsWhole_iff, ?_, ?_, ?_, ?_⟩
  · intro connect h
    exact accepted_of_bind h
  · intro bind h
    exact accepted_of_bind h
  · intro data sendto sent h
    exact accepted_of_bind h
  · intro group interface request h
    exact multicastRequest_accepts h

/-! ### A system -/

/-- The address that a text stands for. -/
def parseAddress (s : Bytes) : Option InAddr :=
  match octetFormat.parse s with
  | some [first, second, third, fourth] => some ⟨first, second, third, fourth⟩
  | _ => none

theorem parseAddress_eq_some (s : Bytes) (address : InAddr) :
    parseAddress s = some address ↔ s = dottedDecimal address := by
  rw [dottedDecimal, ← octetFormat.parse_eq_some (by simp [InAddr.octets]), parseAddress]
  split
  · rename_i a b c d hparse
    rw [hparse]
    cases address
    simp [InAddr.octets]
  · rename_i hother
    constructor
    · intro h
      cases h
    · intro h
      exact absurd h (hother _ _ _ _)

/-- A little-endian machine. -/
def swapBytes (port : BitVec 16) : BitVec 16 := port.rotateLeft 8

theorem swapBytes_swapBytes (port : BitVec 16) : swapBytes (swapBytes port) = port := by
  ext i hi
  simp only [swapBytes, BitVec.getElem_rotateLeft]
  split_ifs <;> congr 1 <;> omega

/-- The documented behaviour of the native functions, with Winsock started. -/
def reference : NativeAddresses where
  inetPton bytes := parseAddress (cString bytes)
  inetNtop address := some (dottedDecimal address)
  htons := swapBytes
  ntohs := swapBytes
  wsaStartup := 0
  lastError := 0
  inetPton_eq_some bytes address := parseAddress_eq_some (cString bytes) address
  inetNtop_eq _ := rfl
  ntohs_htons := swapBytes_swapBytes
  htons_ntohs := swapBytes_swapBytes

theorem endpoints_round_trip_iff_reference :
    RoundTrips .winsock reference ⟨ascii "10.0.0.1", 80⟩ :=
  (endpoints_round_trip_iff .winsock reference ⟨ascii "10.0.0.1", 80⟩).1.mpr
    fun hnul => absurd hnul (by decide)

/-- An address, a NUL and more. -/
def truncatedEndpoint : Endpoint := ⟨ascii "127.0.0.1" ++ [0] ++ ascii "suffix", 80⟩

def loopback : InAddr := ⟨127, 0, 0, 1⟩

/-- `0.0.0.0`, which leaves the choice of an interface to the system. -/
def anyAddress : InAddr := ⟨0, 0, 0, 0⟩

/-- Both platforms accept it and come back with another endpoint. -/
theorem truncated_endpoint_accepted :
    toSockaddrIn .posix reference truncatedEndpoint = .ok ⟨afInet, swapBytes 80, loopback⟩ ∧
    toSockaddrIn .winsock reference truncatedEndpoint = .ok ⟨afInet, swapBytes 80, loopback⟩ ∧
    (∀ platform, fromSockaddrIn platform reference ⟨afInet, swapBytes 80, loopback⟩ =
      .ok ⟨ascii "127.0.0.1", 80⟩) ∧
    ¬ RoundTrips .posix reference truncatedEndpoint ∧
    ¬ RoundTrips .winsock reference truncatedEndpoint ∧
    ¬ AcceptsWhole .posix reference truncatedEndpoint ∧
    ¬ AcceptsWhole .winsock reference truncatedEndpoint := by
  have hsees : cString truncatedEndpoint.host = dottedDecimal loopback := by decide +kernel
  have haccepted : ∀ platform : Platform,
      toSockaddrIn platform reference truncatedEndpoint =
        .ok ⟨afInet, swapBytes 80, loopback⟩ :=
    fun _ => toSockaddrIn_eq_ok.mpr ⟨fun _ => rfl, loopback, hsees, rfl⟩
  have hwhole : ∀ platform : Platform, ¬ AcceptsWhole platform reference truncatedEndpoint := by
    intro platform h
    exact acceptsWhole_iff.mp h (by decide) ⟨fun _ => rfl, loopback, hsees⟩
  have htext : dottedDecimal loopback = ascii "127.0.0.1" := by decide +kernel
  refine ⟨haccepted _, haccepted _, ?_, ?_, ?_, hwhole _, hwhole _⟩
  · rw [← htext]
    exact fun _ => fromSockaddrIn_eq afInet 80 loopback
  · exact fun h => hwhole _ (roundTrips_iff_acceptsWhole.mp h)
  · exact fun h => hwhole _ (roundTrips_iff_acceptsWhole.mp h)

end Obz.Transport.Addresses
