import Obz.Transport.HandleOwnership
import Obz.Transport.UdpSocket

/-!
# `udp_socket` as an owner of a handle and as an end of a network

The two views of the class are compared on POSIX. Seen as an owner, an object asks a
kernel at each native call and hosts are strings; seen as an end of a network, it is
told what the native calls return and hosts are bytes. Told what the kernel says, the
second view answers every call as the first does and has the same objects open.
-/
namespace Obz.Transport.Handles

open Foundation Addresses Program

variable {ι : Type}

/-! ### Values of the two views -/

/-- A host has one character for each byte of the `std::string`. -/
def Endpoint.encode (value : Endpoint) : Addresses.Endpoint :=
  ⟨ascii value.host, value.port.toBitVec⟩

/-- The same exception, with its category and with bytes for its text. -/
def udpError : Error → Datagrams.UdpError
  | .invalidArgument what => .address (.invalidArgument (ascii what))
  | .systemError code what => .address (socketError .posix code (ascii what))
  | .runtimeError what => .socket (.runtimeError what)

def answer (outcome : Except Error Unit) : Except Datagrams.UdpError Datagrams.Answer :=
  (outcome.map fun _ => .done).mapError udpError

theorem ascii_append (s t : String) : ascii (s ++ t) = ascii s ++ ascii t := by
  simp [ascii]

theorem ascii_text (message : String) (value : Endpoint) :
    ascii (message ++ value.host ++ ":" ++ toString value.port) =
      ascii message ++ value.encode.text := by
  simp only [ascii_append, Addresses.Endpoint.text, Endpoint.encode, List.append_assoc]
  rfl

/-- The kernel reads the hosts that the native parser reads. -/
def Reads (K : Kernel ι) (native : NativeAddresses) : Prop :=
  ∀ w host, (K.outcome w (.inetPton host)).isOk = (native.inetPton (ascii host ++ [0])).isSome

/-- A kernel that leaves hosts to the native parser. -/
def Kernel.parsing (K : Kernel ι) (native : NativeAddresses) : Kernel ι :=
  { K with
    outcome := fun w c =>
      match c with
      | .inetPton host => if (native.inetPton (ascii host ++ [0])).isSome then .ok () else .error 0
      | c => K.outcome w c }

theorem reads_parsing (K : Kernel ι) (native : NativeAddresses) :
    Reads (K.parsing native) native := by
  intro w host
  simp only [Kernel.parsing]
  split_ifs with hread <;> simp [Except.isOk, Except.toBool, hread]

/-! ### The functions that take an endpoint -/

section Endpoints

variable {K : Kernel ι} {native : NativeAddresses}

theorem call_nativeTry (K : Kernel ι) (c : NativeCall) (w : World ι) :
    call (nativeTry K c) w =
      match K.outcome w c with
      | .error errno => (.ok false, (w.perform c).fail errno)
      | .ok _ => (.ok true, w.perform c) := by
  cases hout : K.outcome w c <;> simp [nativeTry, hout]

/-- An endpoint is refused in both views or in none. -/
theorem toSockaddrIn_alike (hreads : Reads K native) (value : Endpoint) (w : World ι) :
    (call (toSockaddrIn K value) w = (.ok value, w.perform (.inetPton value.host)) ∧
      ∃ address, Addresses.toSockaddrIn .posix native value.encode = .ok address) ∨
    ∃ e e' w', call (toSockaddrIn K value) w = (.error e, w') ∧ w'.objects = w.objects ∧
      Addresses.toSockaddrIn .posix native value.encode = .error e' ∧
      udpError e = .address e' := by
  have hread := hreads w value.host
  cases hout : K.outcome w (.inetPton value.host) with
  | error errno =>
    have hnone : native.inetPton (ascii value.host ++ [0]) = none := by
      simpa [hout, Except.isOk, Except.toBool] using hread.symm
    refine Or.inr ⟨.invalidArgument ("invalid IPv4 endpoint host: " ++ value.host),
      .invalidArgument (ascii "invalid IPv4 endpoint host: " ++ ascii value.host),
      (w.perform (.inetPton value.host)).fail errno, by simp [toSockaddrIn, nativeTry, hout], rfl,
      ?_, ?_⟩
    · simp [Addresses.toSockaddrIn, start, Endpoint.encode, hnone, Bind.bind, Except.bind]
    · simp [udpError, ascii_append]
  | ok result =>
    obtain ⟨address, haddress⟩ : ∃ address, native.inetPton (ascii value.host ++ [0]) =
        some address := by
      rw [← Option.isSome_iff_exists, ← hread, hout]
      rfl
    refine Or.inl ⟨by simp [toSockaddrIn, nativeTry, hout],
      ⟨afInet, native.htons value.port.toBitVec, address⟩, ?_⟩
    simp [Addresses.toSockaddrIn, start, Endpoint.encode, haddress, Bind.bind, Except.bind]

/-- What `connect_socket` and `bind_socket` have in common. -/
theorem reported_alike (hreads : Reads K native) (c : Endpoint → NativeCall) (message : String)
    (value : Endpoint) (w : World ι) :
    let outcome := call (do
        let address ← toSockaddrIn K value
        if ← nativeTry K (c address) then
          return ()
        else
          throw (← lastSocketError (message ++ value.host ++ ":" ++ toString value.port))) w
    outcome.1.mapError udpError = (do
        let _ ← Addresses.toSockaddrIn .posix native value.encode
        checked .posix (ascii message ++ value.encode.text)
          (K.outcome (w.perform (.inetPton value.host)) (c value)) :
        Except AddressError Unit).mapError .address ∧
      outcome.2.objects = w.objects := by
  obtain ⟨hcall, address, haddress⟩ | ⟨e, e', w', hcall, hobjects, he', he⟩ :=
    toSockaddrIn_alike hreads value w
  · simp only [call_bind, hcall, haddress, call_nativeTry]
    cases hout : K.outcome (w.perform (.inetPton value.host)) (c value) with
    | error errno =>
      have herror := congrArg
        (fun text => Datagrams.UdpError.address (socketError .posix errno text))
        (ascii_text message value)
      exact ⟨congrArg Except.error herror, rfl⟩
    | ok result => exact ⟨rfl, rfl⟩
  · simp only [call_bind, hcall, he']
    exact ⟨congrArg Except.error he, hobjects⟩

theorem connectSocket_alike (hreads : Reads K native) (handle : NativeSocketHandle)
    (value : Endpoint) (w : World ι) :
    (call (connectSocket K handle value) w).1.mapError udpError =
      (Addresses.connectSocket .posix native value.encode fun _ =>
        K.outcome (w.perform (.inetPton value.host)) (.connect handle value)).mapError .address ∧
      (call (connectSocket K handle value) w).2.objects = w.objects :=
  reported_alike hreads (.connect handle) "failed to connect to " value w

theorem bindSocket_alike (hreads : Reads K native) (handle : NativeSocketHandle)
    (value : Endpoint) (w : World ι) :
    (call (bindSocket K handle value) w).1.mapError udpError =
      (Addresses.bindSocket .posix native value.encode fun _ =>
        K.outcome (w.perform (.inetPton value.host)) (.bind handle value)).mapError .address ∧
      (call (bindSocket K handle value) w).2.objects = w.objects :=
  reported_alike hreads (.bind handle) "failed to bind socket to " value w

end Endpoints

/-! ### The objects -/

section Objects

variable {K : Kernel ι} {native : NativeAddresses} {w w' : World ι} {v : Datagrams.World ι}
  {i j : ι}

/-- The same objects are open. -/
def Alike (w : World ι) (v : Datagrams.World ι) : Prop := ∀ i, (v.sockets i).isSome = w.isOpen i

theorem isOpen_eq_isSome : w.isOpen i = (w.handle i).isSome := by
  cases hd : w.handle i <;> simp [World.isOpen, isValid, invalidSocket, hd]

theorem Alike.congr (h : Alike w v) (hobjects : w'.objects = w.objects) : Alike w' v := by
  intro j
  rw [h j, isOpen_eq_isSome, isOpen_eq_isSome, World.handle, World.handle, hobjects]

/-- What `socket` returns to `open`. -/
def created (K : Kernel ι) (w : World ι) : Except ℕ Unit :=
  (K.handleFor w (.socket .datagram)).map fun _ => ()

theorem call_createUdpSocket (K : Kernel ι) (w : World ι) :
    call (createUdpSocket K) w =
      match K.handleFor w (.socket .datagram) with
      | .error errno => (.error (.systemError errno "failed to create UDP socket"),
        (w.perform (.socket .datagram)).fail errno)
      | .ok d => (.ok (some d), (w.perform (.socket .datagram)).opened d) := by
  cases hd : K.handleFor w (.socket .datagram) <;>
    simp [createUdpSocket, nativeOpen, lastSocketError, hd, isValid, invalidSocket, World.fail]

variable [DecidableEq ι]

theorem Alike.set (h : Alike w v) {socket : Option Datagrams.KernelSocket}
    (hi : w'.isOpen i = socket.isSome) (hj : ∀ j, j ≠ i → w'.isOpen j = w.isOpen j) :
    Alike w' (v.set i socket) := by
  intro j
  rcases eq_or_ne j i with rfl | hne
  · simp [Datagrams.World.set, hi]
  · simp [Datagrams.World.set, Function.update_of_ne hne, h j, hj j hne]

theorem handle_afterClose_of_ne (hne : j ≠ i) : (w.afterClose i).handle j = w.handle j := by
  rcases hd : w.handle i with _ | d
  · simp only [World.afterClose, hd]
  · simp only [World.afterClose, hd]
    exact handle_setHandle_of_ne hne

theorem Alike.afterClose (h : Alike w v) : Alike (w.afterClose i) (v.close i) := by
  apply h.set
  · rw [isOpen_eq_isSome, handle_afterClose]
    rfl
  · intro j hne
    rw [isOpen_eq_isSome, isOpen_eq_isSome, handle_afterClose_of_ne hne]

theorem open_alike (K : Kernel ι) (native : NativeAddresses) (h : Alike w v)
    (hi : (w.objects i).isSome) :
    (v.open .posix native i (created K w)).1 = answer (call (UdpSocket.open K i) w).1 ∧
      Alike (call (UdpSocket.open K i) w).2 (v.open .posix native i (created K w)).2 := by
  have hsocket := h i
  by_cases hopen : w.isOpen i = true
  · obtain ⟨socket, hs⟩ := Option.isSome_iff_exists.mp (hsocket.trans hopen)
    have hcall : call (UdpSocket.open K i) w = (.error UdpSocket.alreadyOpen, w) := by
      simp [UdpSocket.open, hopen]
    rw [hcall, Datagrams.World.open, hs]
    exact ⟨rfl, h⟩
  · have hs : v.sockets i = none := by simpa [hopen] using hsocket
    rw [Datagrams.World.open, hs]
    simp only [UdpSocket.open, call_bind, call_get, if_neg hopen, call_createUdpSocket, created]
    cases hd : K.handleFor w (.socket .datagram) with
    | error errno => exact ⟨rfl, h.congr rfl⟩
    | ok d =>
      refine ⟨rfl, h.set ?_ fun j hne => ?_⟩
      · rw [isOpen_eq_isSome]
        exact congrArg Option.isSome (handle_setHandle_self hi)
      · rw [isOpen_eq_isSome, isOpen_eq_isSome]
        exact congrArg Option.isSome (handle_setHandle_of_ne hne)

/-- What `bind` returns to `bind_socket`. -/
def bound (K : Kernel ι) (w : World ι) (i : ι) (localEndpoint : Endpoint) : Except ℕ Unit :=
  let opened := (call (UdpSocket.open K i) (w.afterClose i)).2
  K.outcome (opened.perform (.inetPton localEndpoint.host))
    (.bind (opened.handle i) localEndpoint)

theorem call_udpBind (K : Kernel ι) (w : World ι) (i : ι) (localEndpoint : Endpoint) :
    call (UdpSocket.bind K i localEndpoint) w =
      match call (UdpSocket.open K i) (w.afterClose i) with
      | (.error e, opened) => (.error e, opened)
      | (.ok _, opened) =>
        match call (bindSocket K (opened.handle i) localEndpoint) opened with
        | (.ok _, last) => (.ok (), last)
        | (.error e, last) => (.error e, last.afterClose i) := by
  simp only [UdpSocket.bind, UdpSocket.close, call_bind, call_closeHandle]
  rcases call (UdpSocket.open K i) (w.afterClose i) with ⟨e | _, opened⟩
  · rfl
  · simp only [call_get, call_tryCatch]
    rcases call (bindSocket K (opened.handle i) localEndpoint) opened with ⟨e | _, last⟩
    · simp [call_closeHandle]
    · rfl

theorem bind_alike (hreads : Reads K native) (h : Alike w v) (hi : (w.objects i).isSome)
    (localEndpoint : Endpoint) :
    let first := call (UdpSocket.bind K i localEndpoint) w
    let second := v.bind .posix native i localEndpoint.encode (created K (w.afterClose i))
      (bound K w i localEndpoint)
    second.1 = answer first.1 ∧ Alike first.2 second.2 := by
  obtain ⟨hanswer, hopened⟩ :=
    open_alike K native (h.afterClose (i := i)) (isSome_afterClose.trans hi)
  simp only [call_udpBind, Datagrams.World.bind, bound]
  rcases hfirst : call (UdpSocket.open K i) (w.afterClose i) with ⟨e | _, opened⟩
  · rw [hfirst] at hanswer hopened
    rcases hsecond : (v.close i).open .posix native i (created K (w.afterClose i)) with ⟨r, opened'⟩
    rw [hsecond] at hanswer hopened
    obtain rfl : r = .error (udpError e) := hanswer
    exact ⟨rfl, hopened⟩
  · rw [hfirst] at hanswer hopened
    rcases hsecond : (v.close i).open .posix native i (created K (w.afterClose i)) with ⟨r, opened'⟩
    rw [hsecond] at hanswer hopened
    obtain rfl : r = .ok .done := hanswer
    obtain ⟨hbind, hobjects⟩ := bindSocket_alike hreads (opened.handle i) localEndpoint opened
    have hlast := hopened.congr hobjects
    dsimp only
    rcases hcall : call (bindSocket K (opened.handle i) localEndpoint) opened with ⟨e | _, last⟩
    · rw [hcall] at hbind hlast
      rcases hcall' : Addresses.bindSocket .posix native localEndpoint.encode fun _ =>
          K.outcome (opened.perform (.inetPton localEndpoint.host))
            (.bind (opened.handle i) localEndpoint) with e' | _
      · rw [hcall'] at hbind
        have he : udpError e = .address e' := Except.error.inj hbind
        exact ⟨congrArg Except.error he.symm, hlast.afterClose⟩
      · rw [hcall'] at hbind
        cases hbind
    · rw [hcall] at hbind hlast
      rcases hcall' : Addresses.bindSocket .posix native localEndpoint.encode fun _ =>
          K.outcome (opened.perform (.inetPton localEndpoint.host))
            (.bind (opened.handle i) localEndpoint) with e' | _
      · rw [hcall'] at hbind
        cases hbind
      · exact ⟨rfl, hlast⟩

theorem isOpen_moved (hi : (w.objects i).isSome) (hj : (w.objects j).isSome) (hne : i ≠ j) :
    (w.moved j i).isOpen i = w.isOpen j ∧ (w.moved j i).isOpen j = false ∧
      ∀ k, k ≠ i → k ≠ j → (w.moved j i).isOpen k = w.isOpen k := by
  have hmoved : hand none (w.moved j i) =
      Function.update (Function.update (hand none w) (some i) (w.handle j)) (some j) none :=
    hand_moved hi hj
  have hhand : ∀ k, (w.moved j i).handle k =
      Function.update (Function.update (hand none w) (some i) (w.handle j)) (some j) none
        (some k) := fun k => congrFun hmoved (some k)
  simp only [isOpen_eq_isSome, hhand]
  refine ⟨?_, ?_, fun k hki hkj => ?_⟩
  · simp [hne]
  · simp
  · simp [hki, hkj, hand]

/-- Object `i` takes over from `j`, and keeps nothing of its own. -/
theorem Alike.moved (h : ∀ k, k ≠ i → (v.sockets k).isSome = w.isOpen k)
    (hi : (w.objects i).isSome) (hj : (w.objects j).isSome) (hne : i ≠ j) :
    Alike (w.moved j i) (v.moveAssign i j) := by
  obtain ⟨hto, hfrom, hother⟩ := isOpen_moved hi hj hne
  intro k
  rw [Datagrams.World.moveAssign, if_neg hne]
  rcases eq_or_ne k j with rfl | hkj
  · simp [Datagrams.World.set, hfrom]
  · rcases eq_or_ne k i with rfl | hki
    · simp [Datagrams.World.set, hne, hto, h j hne.symm]
    · simp [Datagrams.World.set, hkj, hki, hother k hki hkj, h k hki]

theorem moveAssign_alike (h : Alike w v) (hi : (w.objects i).isSome) (hj : (w.objects j).isSome) :
    ∃ last, call (moveAssign i j) w = (.ok (), last) ∧ Alike last (v.moveAssign i j) := by
  rcases eq_or_ne i j with rfl | hne
  · refine ⟨w, by simp [moveAssign], ?_⟩
    rw [Datagrams.World.moveAssign, if_pos rfl]
    exact h
  · refine ⟨(w.afterClose i).moved j i, by simp [moveAssign, hne, call_closeHandle], ?_⟩
    apply Alike.moved _ (isSome_afterClose.trans hi) (isSome_afterClose.trans hj) hne
    intro k hki
    rw [h k, isOpen_eq_isSome, isOpen_eq_isSome, handle_afterClose_of_ne hki]

theorem handle_setObject_of_ne {object : Option Object} (hne : j ≠ i) :
    (w.setObject i object).handle j = w.handle j := by
  simp [World.setObject, World.handle, Function.update_of_ne hne]

theorem moveConstruct_alike (h : Alike w v) {kind : Kind} (hi : w.objects i = none)
    (hj : (w.objects j).isSome) :
    Alike (call (moveConstruct kind i j) w).2 (v.moveAssign i j) := by
  have hne : i ≠ j := by
    rintro rfl
    simp [hi] at hj
  have hmade : ((w.setObject i (some { kind })).objects i).isSome := by simp [World.setObject]
  have hother : ((w.setObject i (some { kind })).objects j).isSome := by
    simpa [World.setObject, Function.update_of_ne hne.symm] using hj
  apply Alike.moved _ hmade hother hne
  intro k hki
  rw [h k, isOpen_eq_isSome, isOpen_eq_isSome, handle_setObject_of_ne hki]

theorem construct_alike (h : Alike w v) {kind : Kind} (hi : w.objects i = none) :
    Alike (call (construct kind i) w).2 v := by
  intro k
  have hsame : (w.setObject i (some { kind })).handle k = w.handle k := by
    rcases eq_or_ne k i with rfl | hne
    · simp [World.setObject, World.handle, hi]
    · exact handle_setObject_of_ne hne
  rw [h k, isOpen_eq_isSome, isOpen_eq_isSome]
  exact congrArg Option.isSome hsame.symm

theorem destroy_alike (h : Alike w v) :
    ∃ last, call (destroy i) w = (.ok (), last) ∧ Alike last (v.close i) := by
  refine ⟨(w.afterClose i).setObject i none, by simp [destroy, call_closeHandle], ?_⟩
  apply h.set
  · simp [isOpen_eq_isSome, World.setObject, World.handle, invalidSocket]
  · intro j hne
    rw [isOpen_eq_isSome, isOpen_eq_isSome, handle_setObject_of_ne hne,
      handle_afterClose_of_ne hne]

/-! ### Programs of `udp_socket` objects -/

/-- The calls of `udp_socket`, and other code of the process. -/
def Action.OfUdp : Action ι → Prop
  | construct kind _ | moveConstruct kind _ _ | moveAssign kind _ _ | close kind _ |
    destroy kind _ => kind = .udpSocket
  | «open» _ | bind _ _ | foreignOpen _ | foreignClose _ => True
  | connect _ _ | listen _ _ _ | accept _ _ => False

/-- The call in the other view, told what the kernel says. An object that is made or gone is
a closed one there. -/
def Action.told (K : Kernel ι) (w : World ι) : Action ι → Option (Datagrams.Action ι)
  | moveConstruct _ this other | moveAssign _ this other => some (.moveAssign this other)
  | close _ this | destroy _ this => some (.close this)
  | «open» this => some (.open this (created K w))
  | bind this localEndpoint => some (.bind this localEndpoint.encode (created K (w.afterClose this))
      (bound K w this localEndpoint))
  | _ => none

/-- A call is answered alike in both views. -/
theorem call_alike (hreads : Reads K native) (h : Alike w v) {a : Action ι} (ha : a.WellTyped w)
    (hudp : a.OfUdp) :
    (∀ b, a.told K w = some b → ∃ v', Datagrams.World.call .posix native v b =
        some (answer (call (a.call K) w).1, v') ∧ Alike (call (a.call K) w).2 v') ∧
      (a.told K w = none → Alike (call (a.call K) w).2 v) := by
  cases a with
  | construct kind this => exact ⟨nofun, fun _ => construct_alike h ha⟩
  | moveConstruct kind this other =>
    obtain rfl : kind = .udpSocket := hudp
    refine ⟨?_, nofun⟩
    rintro _ ⟨⟩
    exact ⟨_, rfl, moveConstruct_alike h ha.1 (isSome_of_isA ha.2)⟩
  | moveAssign kind this other =>
    obtain rfl : kind = .udpSocket := hudp
    refine ⟨?_, nofun⟩
    rintro _ ⟨⟩
    obtain ⟨last, hcall, hlast⟩ := moveAssign_alike h (isSome_of_isA ha.1) (isSome_of_isA ha.2)
    have hcall' : call (Action.call K (.moveAssign .udpSocket this other)) w = (.ok (), last) :=
      hcall
    rw [hcall']
    exact ⟨_, rfl, hlast⟩
  | close kind this =>
    obtain rfl : kind = .udpSocket := hudp
    refine ⟨?_, nofun⟩
    rintro _ ⟨⟩
    have hcall : call (Action.call K (.close .udpSocket this)) w = (.ok (), w.afterClose this) :=
      call_closeHandle w this
    rw [hcall]
    exact ⟨_, rfl, h.afterClose⟩
  | destroy kind this =>
    obtain rfl : kind = .udpSocket := hudp
    refine ⟨?_, nofun⟩
    rintro _ ⟨⟩
    obtain ⟨last, hcall, hlast⟩ := destroy_alike (i := this) h
    have hcall' : call (Action.call K (.destroy .udpSocket this)) w = (.ok (), last) := hcall
    rw [hcall']
    exact ⟨_, rfl, hlast⟩
  | «open» this =>
    refine ⟨?_, nofun⟩
    rintro _ ⟨⟩
    obtain ⟨hanswer, hlast⟩ := open_alike K native h (isSome_of_isA ha)
    exact ⟨_, congrArg some (Prod.ext hanswer rfl), hlast⟩
  | bind this localEndpoint =>
    refine ⟨?_, nofun⟩
    rintro _ ⟨⟩
    obtain ⟨hanswer, hlast⟩ := bind_alike hreads h (isSome_of_isA ha) localEndpoint
    exact ⟨_, congrArg some (Prod.ext hanswer rfl), hlast⟩
  | foreignOpen d => exact ⟨nofun, fun _ => h.congr rfl⟩
  | foreignClose d => exact ⟨nofun, fun _ => h.congr rfl⟩
  | _ => exact hudp.elim

/-- A program in the other view. -/
def toldRun (K : Kernel ι) : World ι → List (Action ι) → List (Datagrams.Action ι)
  | _, [] => []
  | w, a :: as => (a.told K w).toList ++ toldRun K (call (a.call K) w).2 as

/-- What a program of `udp_socket` objects does over a kernel it does in the other view, told
what the kernel says. -/
theorem run_alike (hreads : Reads K native) (memory : Memory UInt8) (h : Alike w v)
    {as : List (Action ι)} (hudp : ∀ a ∈ as, a.OfUdp) (hrun : (system K).run w as = some w') :
    ∃ v', (Datagrams.sockets .posix native ι memory).run v (toldRun K w as) = some v' ∧
      Alike w' v' := by
  induction as generalizing w v with
  | nil =>
    cases hrun
    exact ⟨v, rfl, h⟩
  | cons a as ih =>
    obtain ⟨u, hu, hrest⟩ := (System.run_cons _).mp hrun
    simp only [system] at hu
    split_ifs at hu with ha
    obtain rfl := Option.some.inj hu
    obtain ⟨htold, hsilent⟩ := call_alike hreads h ha (hudp a List.mem_cons_self)
    have hlater : ∀ b ∈ as, b.OfUdp := fun b hb => hudp b (List.mem_cons_of_mem a hb)
    rw [toldRun]
    cases hb : a.told K w with
    | none => exact ih (hsilent hb) hlater hrest
    | some b =>
      obtain ⟨u', hcall, halike⟩ := htold b hb
      obtain ⟨v', hv', hlast⟩ := ih halike hlater hrest
      refine ⟨v', (System.run_cons _).mpr ⟨u', ?_, hv'⟩, hlast⟩
      simp [Datagrams.sockets, hcall]

/-- From the start on, the two views of a program have the same objects open. -/
theorem udp_views_agree (hreads : Reads K native) (memory : Memory UInt8) {as : List (Action ι)}
    (hudp : ∀ a ∈ as, a.OfUdp) (hrun : (system K).run (system K).start as = some w) :
    ∃ v, (Datagrams.sockets .posix native ι memory).run (.initial memory) (toldRun K {} as) =
      some v ∧ ∀ i, (v.sockets i).isSome = w.isOpen i :=
  run_alike hreads memory (fun _ => rfl) hudp hrun

end Objects

end Obz.Transport.Handles
