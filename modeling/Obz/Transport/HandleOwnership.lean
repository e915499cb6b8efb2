import Obz.Transport.SocketObjects

/-!
# Handles are owned linearly

The ledger of the handles that the library got agrees with the objects at every
point of every member function, apart from one handle that a function may have
in hand for itself. Rules for the functions of the platform layer come first.
-/
namespace Obz.Transport.Handles

open Foundation

variable {ι : Type} [DecidableEq ι]

/-- The handles of the library. -/
def Mine : Owner → Prop
  | .library _ => True
  | _ => False

/-- What each object has in hand; the running function itself has `loose`. -/
def hand (loose : Option ℕ) (w : World ι) : Option ι → Option ℕ
  | none => loose
  | some i => w.handle i

structure Books (loose : Option ℕ) (w : World ι) (c : Custody.Ledger ι Owner) : Prop where
  accepted : Custody.Accepts w.custody c
  agrees : Custody.Agrees Mine (hand loose w) w.descriptors c
  absent_iff : ∀ n, c (.library n) = .absent ↔ w.creations ≤ n
  mine : ∀ e ∈ w.custody, Mine e.token

/-- The books are in order. -/
def Kept (loose : Option ℕ) (w : World ι) : Prop := ∃ c, Books loose w c

theorem mine_iff {owner : Owner} : Mine owner ↔ ∃ n, owner = .library n := by
  cases owner <;> simp [Mine]

section Worlds

variable {w : World ι} {i j : ι} {h : NativeSocketHandle}

theorem handle_setHandle_self (hi : (w.objects i).isSome) : (w.setHandle i h).handle i = h := by
  obtain ⟨object, ho⟩ := Option.isSome_iff_exists.mp hi
  simp [World.setHandle, World.setObject, World.handle, ho]

theorem handle_setHandle_of_ne (hne : j ≠ i) : (w.setHandle i h).handle j = w.handle j := by
  simp [World.setHandle, World.setObject, World.handle, Function.update_of_ne hne]

theorem isSome_setHandle : ((w.setHandle i h).objects j).isSome = (w.objects j).isSome := by
  rcases eq_or_ne j i with rfl | hne
  · simp [World.setHandle, World.setObject]
  · simp [World.setHandle, World.setObject, Function.update_of_ne hne]

omit [DecidableEq ι] in
theorem isSome_of_handle {d : ℕ} (hd : w.handle i = some d) : (w.objects i).isSome := by
  rcases ho : w.objects i with _ | object
  · simp [World.handle, ho, invalidSocket] at hd
  · rfl

theorem hand_setHandle {loose : Option ℕ} (hi : (w.objects i).isSome) :
    hand loose (w.setHandle i h) = Function.update (hand loose w) (some i) h := by
  funext o
  rcases o with _ | j
  · rfl
  · rcases eq_or_ne j i with rfl | hne
    · simpa [hand] using handle_setHandle_self hi
    · have hne' : (some j : Option ι) ≠ some i := fun heq => hne (Option.some.inj heq)
      rw [Function.update_of_ne hne']
      exact handle_setHandle_of_ne hne

theorem hand_moved {loose : Option ℕ} (hi : (w.objects i).isSome) (hj : (w.objects j).isSome) :
    hand loose (w.moved j i) =
      Function.update (Function.update (hand loose w) (some i) (w.handle j)) (some j) none := by
  rw [← hand_setHandle hi, ← hand_setHandle (isSome_setHandle.trans hj)]
  rcases hd : w.handle j with _ | d
  · simp only [World.moved, hd]
  · simp only [World.moved, hd]
    rfl

/-- An object that is not open makes no difference. -/
theorem hand_setObject {loose : Option ℕ} {object : Option Object} (hi : w.handle i = none)
    (ho : (object.map Object.handle).getD invalidSocket = none) :
    hand loose (w.setObject i object) = hand loose w := by
  funext o
  rcases o with _ | j
  · rfl
  · rcases eq_or_ne j i with rfl | hne
    · have hnew : (w.setObject j object).handle j = none := by
        simpa [World.setObject, World.handle] using ho
      exact hnew.trans hi.symm
    · simp [hand, World.setObject, World.handle, Function.update_of_ne hne]

end Worlds

namespace Kept

variable {w w' : World ι} {loose : Option ℕ} {i : ι} {d : ℕ}

/-- Only handles, descriptors and the record of custody matter. -/
theorem congr (h : Kept loose w) (hh : hand loose w' = hand loose w)
    (hd : ∀ d, w'.descriptors d = w.descriptors d ∨
      ¬ Mine (w.descriptors d) ∧ ¬ Mine (w'.descriptors d))
    (hn : w'.creations = w.creations) (hc : w'.custody = w.custody) : Kept loose w' := by
  obtain ⟨c, hbooks⟩ := h
  exact ⟨c, hc ▸ hbooks.accepted, hh ▸ hbooks.agrees.congr hd, fun n => hn ▸ hbooks.absent_iff n,
    hc ▸ hbooks.mine⟩

theorem opened (h : Kept none w) (hd : w.descriptors d = .nobody) :
    Kept (some d) (w.opened d) := by
  obtain ⟨c, hbooks⟩ := h
  have habsent : c (.library w.creations) = .absent := (hbooks.absent_iff _).mpr le_rfl
  have hhand : hand (some d) (w.opened d) = Function.update (hand none w) none (some d) := by
    funext o
    cases o <;> simp [hand, World.opened, World.handle]
  refine ⟨_, hbooks.accepted.snoc (e := .create _) habsent, ?_, ?_, ?_⟩
  · rw [hhand]
    exact hbooks.agrees.create (by simp [hd, Mine]) trivial habsent rfl
  · intro n
    rcases eq_or_ne n w.creations with rfl | hne
    · simp [World.opened, Custody.Event.token, Custody.Event.leaves]
    · have hne' : Owner.library n ≠ .library w.creations := by simpa using hne
      have hold := hbooks.absent_iff n
      simp only [Custody.Event.token, Custody.Event.leaves, Function.update_of_ne hne', hold,
        World.opened]
      omega
  · exact List.forall_mem_append.mpr ⟨hbooks.mine, by simp [Custody.Event.token, Mine]⟩

omit [DecidableEq ι] in
/-- A handle of the library stays its own creation, whatever becomes of it. -/
theorem absent_iff_update {c : Custody.Ledger ι Owner} {owner : Owner} {s s' : Custody.Status ι}
    (hc : c owner = s) (hs : s ≠ .absent) (hs' : s' ≠ .absent) (n : ℕ) :
    Function.update c owner s' (.library n) = .absent ↔ c (.library n) = .absent := by
  rcases eq_or_ne (Owner.library n) owner with rfl | hne
  · simp [hc, hs, hs']
  · rw [Function.update_of_ne hne]

/-- A handle passes from `o` to `o'`. -/
theorem passed {loose' : Option ℕ} {o o' : Option ι} {e : Custody.Event ι Owner}
    (h : Kept loose w) (ho : hand loose w o = some d) (ho' : hand loose w o' = none)
    (htoken : e.token = w.descriptors d) (hneeds : e.needs = .ofHolder o)
    (hleaves : e.leaves = .ofHolder o') (hcustody : w'.custody = w.custody ++ [e])
    (hhand : hand loose' w' =
      Function.update (Function.update (hand loose w) o' (some d)) o none)
    (hd : w'.descriptors = w.descriptors) (hn : w'.creations = w.creations) :
    Kept loose' w' := by
  obtain ⟨c, hbooks⟩ := h
  have hmine := hbooks.agrees.owned o d ho
  have hc : c (w.descriptors d) = .ofHolder o := (hbooks.agrees.holds_iff o d hmine).mp ho
  refine ⟨Function.update c (w.descriptors d) (.ofHolder o'), ?_, ?_, ?_, ?_⟩
  · have haccepted := hbooks.accepted.snoc (e := e) (by rw [htoken, hneeds, hc])
    rwa [htoken, hleaves, ← hcustody] at haccepted
  · rw [hhand, hd]
    exact hbooks.agrees.pass ho ho'
  · intro n
    rw [hn, ← hbooks.absent_iff n]
    exact absent_iff_update hc (by simp) (by simp) n
  · exact hcustody ▸ List.forall_mem_append.mpr ⟨hbooks.mine, by simpa [htoken] using hmine⟩

/-- `o` closes the handle it has in hand. -/
theorem closed {o : Option ι} {loose' : Option ℕ} (h : Kept loose w)
    (ho : hand loose w o = some d)
    (hcustody : w'.custody = w.custody ++ [.release o (w.descriptors d)])
    (hhand : hand loose' w' = Function.update (hand loose w) o none)
    (hd : w'.descriptors = Function.update w.descriptors d .nobody)
    (hn : w'.creations = w.creations) : Kept loose' w' := by
  obtain ⟨c, hbooks⟩ := h
  have hmine := hbooks.agrees.owned o d ho
  have hc : c (w.descriptors d) = .ofHolder o := (hbooks.agrees.holds_iff o d hmine).mp ho
  refine ⟨Function.update c (w.descriptors d) .released, ?_, ?_, ?_, ?_⟩
  · exact hcustody ▸ hbooks.accepted.snoc (e := .release o (w.descriptors d)) hc
  · rw [hhand, hd]
    exact hbooks.agrees.release ho (by simp [Mine])
  · intro n
    rw [hn, ← hbooks.absent_iff n]
    exact absent_iff_update hc (by simp) (by simp) n
  · exact hcustody ▸ List.forall_mem_append.mpr
      ⟨hbooks.mine, by simpa [Custody.Event.token] using hmine⟩

theorem adopted (h : Kept (some d) w) (hi : (w.objects i).isSome) (hnone : w.handle i = none) :
    Kept none (w.adopted i (some d)) := by
  have hloose : hand (some d) w none = some d := rfl
  have hholder : hand (some d) w (some i) = none := hnone
  refine h.passed (e := .adopt i (w.descriptors d)) hloose hholder rfl rfl rfl rfl ?_ rfl rfl
  funext o
  have hset : hand none (w.setHandle i (some d)) o = Function.update (hand none w) _ _ o :=
    congrFun (hand_setHandle hi) o
  change hand none (w.setHandle i (some d)) o = _
  rw [hset]
  cases o with
  | none => rfl
  | some j => rcases eq_or_ne j i with rfl | hne <;> simp [hand, Function.update, *]

theorem moved {j : ι} (h : Kept loose w) (hi : (w.objects i).isSome) (hj : (w.objects j).isSome)
    (hnone : w.handle i = none) : Kept loose (w.moved j i) := by
  have hhand : hand loose (w.moved j i) = _ := hand_moved hi hj
  rcases hd : w.handle j with _ | d
  · refine h.congr ?_ (fun _ => Or.inl ?_) ?_ ?_
    · have hi' : Function.update (hand loose w) (some i) none = hand loose w :=
        Function.update_eq_self_iff.mpr hnone.symm
      have hj' : Function.update (hand loose w) (some j) none = hand loose w :=
        Function.update_eq_self_iff.mpr hd.symm
      rw [hhand, hd, hi', hj']
    all_goals simp only [World.moved, hd]; rfl
  · have hgiver : hand loose w (some j) = some d := hd
    have htaker : hand loose w (some i) = none := hnone
    refine h.passed (e := .move j i (w.descriptors d)) hgiver htaker rfl rfl rfl ?_
      (hd ▸ hhand) ?_ ?_
    all_goals simp only [World.moved, hd, World.setHandle, World.setObject]

end Kept

open Program

variable {loose : Option ℕ} {objects : ι → Option Object}

/-- The books are in order and the objects are these. -/
def Steady (loose : Option ℕ) (objects : ι → Option Object) (w : World ι) : Prop :=
  Kept loose w ∧ w.objects = objects

section Platform

variable (K : Kernel ι)

theorem Steady.perform {w : World ι} {c : NativeCall} (h : Steady loose objects w) :
    Steady loose objects (w.perform c) :=
  ⟨h.1.congr rfl (fun _ => Or.inl rfl) rfl rfl, h.2⟩

theorem Steady.fail {w : World ι} {errno : ℕ} (h : Steady loose objects w) :
    Steady loose objects (w.fail errno) :=
  ⟨h.1.congr rfl (fun _ => Or.inl rfl) rfl rfl, h.2⟩

theorem nativeTry_steady (c : NativeCall) {R : Error → World ι → Prop} :
    Triple (Steady loose objects) (nativeTry K c) (fun _ => Steady loose objects) R := by
  intro w hw
  rcases hc : K.outcome w c with errno | _
  · simpa [nativeTry, hc] using hw.perform.fail
  · simpa [nativeTry, hc] using hw.perform

/-- A handle that the kernel gives out is in the hands of the caller. -/
theorem nativeOpen_steady (c : NativeCall) {R : Error → World ι → Prop} :
    Triple (Steady none objects) (nativeOpen K c) (fun handle => Steady handle objects) R := by
  intro w hw
  rcases hc : K.handleFor w c with errno | d
  · simpa [nativeOpen, hc, invalidSocket] using hw.perform.fail
  · have hd : (w.perform c).descriptors d = .nobody := K.unused w c d hc
    have hopened : Steady (some d) objects ((w.perform c).opened d) :=
      ⟨hw.perform.1.opened hd, hw.2⟩
    simpa [nativeOpen, hc] using hopened

omit [DecidableEq ι] in
theorem lastSocketError_steady (message : String) {P : World ι → Prop}
    {R : Error → World ι → Prop} : Triple P (lastSocketError message) (fun _ => P) R :=
  fun _ hw => hw

/-- `::close` on a handle that no object has yet. -/
theorem nativeClose_steady {d : ℕ} {R : Error → World ι → Prop} :
    Triple (Steady (some d) objects) (nativeClose none (some d))
      (fun _ => Steady none objects) R := by
  intro w hw
  have hhand : hand none ((w.perform (.close (some d))).closed none d) =
      Function.update (hand (some d) (w.perform (.close (some d)))) none none := by
    funext o
    cases o <;> simp [hand, World.closed, World.perform, World.handle]
  exact ⟨hw.perform.1.closed (o := none) rfl rfl hhand rfl rfl, hw.2⟩

theorem configureTcpSocket_steady {d : ℕ} :
    Triple (Steady (some d) objects) (configureTcpSocket K (some d))
      (fun handle w => handle = some d ∧ Steady (some d) objects w)
      (fun _ => Steady none objects) := by
  refine Triple.ite (fun _ => ?_) fun _ => Triple.pure fun w hw => ⟨rfl, hw⟩
  apply (nativeTry_steady K _).bind
  intro succeeded
  refine Triple.ite (fun _ => Triple.pure fun w hw => ⟨rfl, hw⟩) fun _ => ?_
  apply (lastSocketError_steady _).bind
  intro error
  exact nativeClose_steady.bind fun _ => Triple.throw fun _ hw => hw

/-- What `create_tcp_socket` and `accept_socket` have in common. -/
theorem openThenConfigure_steady (c : NativeCall) (message : String) :
    Triple (Steady none objects)
      (do
        let handle ← nativeOpen K c
        if isValid handle then
          configureTcpSocket K handle
        else
          throw (← lastSocketError message))
      (fun handle w => handle.isSome ∧ Steady handle objects w)
      (fun _ => Steady none objects) := by
  apply (nativeOpen_steady K c).bind
  rintro (_ | d)
  · apply (lastSocketError_steady _).bind
    exact fun error => Triple.throw fun _ hw => hw
  · apply (configureTcpSocket_steady K).consequence (fun _ hw => hw) _ (fun _ _ hw => hw)
    rintro _ w ⟨rfl, hw⟩
    exact ⟨rfl, hw⟩

theorem createTcpSocket_steady :
    Triple (Steady none objects) (createTcpSocket K)
      (fun handle w => handle.isSome ∧ Steady handle objects w) (fun _ => Steady none objects) :=
  openThenConfigure_steady K _ _

theorem acceptSocket_steady (handle : NativeSocketHandle) :
    Triple (Steady none objects) (acceptSocket K handle)
      (fun handle w => handle.isSome ∧ Steady handle objects w) (fun _ => Steady none objects) :=
  openThenConfigure_steady K _ _

theorem createUdpSocket_steady :
    Triple (Steady none objects) (createUdpSocket K)
      (fun handle w => handle.isSome ∧ Steady handle objects w)
      (fun _ => Steady none objects) := by
  apply (nativeOpen_steady K _).bind
  rintro (_ | d)
  · apply (lastSocketError_steady _).bind
    exact fun error => Triple.throw fun _ hw => hw
  · exact Triple.pure fun w hw => ⟨rfl, hw⟩

/-- A native call that is checked, and reported by an exception when it fails. -/
theorem checked_steady (c : NativeCall) {failing : Native ι Unit}
    (hfailing : Triple (Steady loose objects) failing (fun _ => Steady loose objects)
      fun _ => Steady loose objects) :
    Triple (Steady loose objects)
      (do if ← nativeTry K c then return () else failing)
      (fun _ => Steady loose objects) (fun _ => Steady loose objects) := by
  apply (nativeTry_steady K c).bind
  intro succeeded
  exact Triple.ite (fun _ => Triple.pure fun _ hw => hw) fun _ => hfailing

theorem toSockaddrIn_steady (value : Endpoint) :
    Triple (Steady loose objects) (toSockaddrIn K value) (fun _ => Steady loose objects)
      (fun _ => Steady loose objects) := by
  apply (nativeTry_steady K _).bind
  intro parsed
  exact Triple.ite (fun _ => Triple.pure fun _ hw => hw) fun _ => Triple.throw fun _ hw => hw

theorem reported_steady (message : String) {α : Type} :
    Triple (Steady loose objects) (do throw (← lastSocketError message) : Native ι α)
      (fun _ => Steady loose objects) (fun _ => Steady loose objects) :=
  (lastSocketError_steady message).bind fun _ => Triple.throw fun _ hw => hw

theorem connectSocket_steady (handle : NativeSocketHandle) (remoteEndpoint : Endpoint) :
    Triple (Steady loose objects) (connectSocket K handle remoteEndpoint)
      (fun _ => Steady loose objects) (fun _ => Steady loose objects) :=
  (toSockaddrIn_steady K remoteEndpoint).bind fun _ => checked_steady K _ (reported_steady _)

theorem bindSocket_steady (handle : NativeSocketHandle) (localEndpoint : Endpoint) :
    Triple (Steady loose objects) (bindSocket K handle localEndpoint)
      (fun _ => Steady loose objects) (fun _ => Steady loose objects) :=
  (toSockaddrIn_steady K localEndpoint).bind fun _ => checked_steady K _ (reported_steady _)

theorem setReuseAddress_steady (handle : NativeSocketHandle) :
    Triple (Steady loose objects) (setReuseAddress K handle)
      (fun _ => Steady loose objects) (fun _ => Steady loose objects) :=
  checked_steady K _ (reported_steady _)

theorem listenSocket_steady (handle : NativeSocketHandle) (backlog : ℤ) :
    Triple (Steady loose objects) (listenSocket K handle backlog)
      (fun _ => Steady loose objects) (fun _ => Steady loose objects) :=
  checked_steady K _ (reported_steady _)

end Platform

/-- Object `i` exists, between two steps of its member functions. -/
def Present (i : ι) (w : World ι) : Prop := Kept none w ∧ (w.objects i).isSome

/-- The object exists and its handle is invalid. -/
def NotOpen (i : ι) (w : World ι) : Prop := Present i w ∧ w.handle i = none

/-- What `close` leaves: nothing but the handle of this object changes. -/
def World.afterClose (w : World ι) (i : ι) : World ι :=
  match w.handle i with
  | none => w
  | some d => ((w.perform (.close (some d))).closed (some i) d).setHandle i none

theorem call_closeHandle (w : World ι) (i : ι) :
    call (closeHandle i) w = (.ok (), w.afterClose i) := by
  rcases hd : w.handle i with _ | d
  · simp [closeHandle, World.isOpen, isValid, World.afterClose, hd, invalidSocket]
  · simp [closeHandle, World.isOpen, isValid, World.afterClose, hd, closeSocket, nativeClose,
      invalidSocket]

theorem isSome_afterClose {w : World ι} {i j : ι} :
    ((w.afterClose i).objects j).isSome = (w.objects j).isSome := by
  rcases hd : w.handle i with _ | d
  · simp only [World.afterClose, hd]
  · simp only [World.afterClose, hd]
    exact isSome_setHandle

theorem handle_afterClose {w : World ι} {i : ι} : (w.afterClose i).handle i = none := by
  rcases hd : w.handle i with _ | d
  · simp only [World.afterClose, hd]
  · simp only [World.afterClose, hd]
    exact handle_setHandle_self (isSome_of_handle (w := w) hd)

theorem Kept.afterClose {w : World ι} {i : ι} (h : Kept loose w) :
    Kept loose (w.afterClose i) := by
  rcases hd : w.handle i with _ | d
  · simpa only [World.afterClose, hd]
  · simp only [World.afterClose, hd]
    exact h.closed (o := some i) hd rfl
      (hand_setHandle (w := (w.perform (.close (some d))).closed (some i) d)
        (isSome_of_handle (w := w) hd)) rfl rfl

section Objects

variable (K : Kernel ι) {i : ι}

theorem closeHandle_notOpen {R : Error → World ι → Prop} :
    Triple (Present i) (closeHandle i) (fun _ => NotOpen i) R := by
  intro w ⟨hw, hi⟩
  rw [call_closeHandle]
  exact ⟨⟨hw.afterClose, isSome_afterClose.trans hi⟩, handle_afterClose⟩

/-- Whatever leaves the objects alone keeps one of them present. -/
theorem present_of_steady {α : Type} {m : Native ι α}
    (hm : ∀ objects, Triple (Steady none objects) m (fun _ => Steady none objects)
      fun _ => Steady none objects) :
    Triple (Present i) m (fun _ => Present i) (fun _ => Present i) := by
  apply Triple.of_start
  intro w₀ ⟨hw₀, hi⟩
  have hobjects : ∀ w, Steady none w₀.objects w → Present i w := fun w hw =>
    ⟨hw.1, by rwa [hw.2]⟩
  apply (hm w₀.objects).consequence _ (fun _ => hobjects) fun _ => hobjects
  rintro _ rfl
  exact ⟨hw₀, rfl⟩

/-- The running function has `handle` for an object that is not open. -/
def InHand (handle : NativeSocketHandle) (i : ι) (w : World ι) : Prop :=
  handle.isSome ∧ Kept handle w ∧ (w.objects i).isSome ∧ w.handle i = none

theorem inHand_of_steady {create : Native ι NativeSocketHandle}
    (hcreate : ∀ objects, Triple (Steady none objects) create
      (fun handle w => handle.isSome ∧ Steady handle objects w) fun _ => Steady none objects) :
    Triple (NotOpen i) create (fun handle => InHand handle i) (fun _ => NotOpen i) := by
  apply Triple.of_start
  intro w₀ ⟨⟨hw₀, hi⟩, hnone⟩
  apply (hcreate w₀.objects).consequence
  · rintro _ rfl
    exact ⟨hw₀, rfl⟩
  · intro handle w ⟨hsome, hw, hobjects⟩
    exact ⟨hsome, hw, by rwa [hobjects], by rwa [World.handle, hobjects]⟩
  · intro _ w ⟨hw, hobjects⟩
    exact ⟨⟨hw, by rwa [hobjects]⟩, by rwa [World.handle, hobjects]⟩

theorem adopted_present {handle : NativeSocketHandle} {R : Error → World ι → Prop} :
    Triple (InHand handle i) (modify fun w => w.adopted i handle) (fun _ => Present i) R := by
  apply Triple.modify
  intro w ⟨hsome, hw, hi, hnone⟩
  obtain ⟨d, rfl⟩ := Option.isSome_iff_exists.mp hsome
  exact ⟨hw.adopted hi hnone, isSome_setHandle.trans hi⟩

/-- `try { … } catch (...) { close(); throw; }` -/
theorem orClose_present {m : Native ι Unit}
    (hm : Triple (Present i) m (fun _ => Present i) (fun _ => Present i)) :
    Triple (Present i)
      (tryCatch m fun error => do
        closeHandle i
        throw error)
      (fun _ => Present i) (fun _ => NotOpen i) :=
  hm.tryCatch fun _ => closeHandle_notOpen.bind fun _ => Triple.throw fun _ hw => hw

theorem connect_present (remoteEndpoint : Endpoint) :
    Triple (Present i) (TcpSocket.connect K i remoteEndpoint) (fun _ => Present i)
      (fun _ => NotOpen i) := by
  apply closeHandle_notOpen.bind
  intro _
  apply (inHand_of_steady fun _ => createTcpSocket_steady K).bind
  intro socketHandle
  apply adopted_present.bind
  intro _
  exact orClose_present (present_of_steady fun _ => connectSocket_steady K _ _)

theorem open_present :
    Triple (NotOpen i) (UdpSocket.open K i) (fun _ => Present i) (fun _ => NotOpen i) := by
  apply Triple.get_bind
  intro w hw
  have hopen : w.isOpen i = false := by simp [World.isOpen, isValid, invalidSocket, hw.2]
  rw [hopen]
  apply ((inHand_of_steady fun _ => createUdpSocket_steady K).consequence _
    (fun _ _ h => h) fun _ _ h => h).bind fun _ => adopted_present
  rintro _ rfl
  exact hw

theorem bind_present (localEndpoint : Endpoint) :
    Triple (Present i) (UdpSocket.bind K i localEndpoint) (fun _ => Present i)
      (fun _ => NotOpen i) := by
  apply closeHandle_notOpen.bind
  intro _
  apply (open_present K).bind
  intro _
  apply Triple.get_bind
  intro w hw
  apply (orClose_present (present_of_steady fun _ => bindSocket_steady K _ _)).consequence _
    (fun _ _ h => h) fun _ _ h => h
  rintro _ rfl
  exact hw

theorem listen_present (localEndpoint : Endpoint) {backlog : ℤ} (hb : 0 < backlog) :
    Triple (Present i) (TcpListener.listen K i localEndpoint backlog) (fun _ => Present i)
      (fun _ => NotOpen i) := by
  rw [TcpListener.listen, if_neg (not_le.mpr hb)]
  apply closeHandle_notOpen.bind
  intro _
  apply (inHand_of_steady fun _ => createTcpSocket_steady K).bind
  intro listenHandle
  apply adopted_present.bind
  intro _
  apply orClose_present
  apply present_of_steady
  intro objects
  apply (setReuseAddress_steady K _).bind
  intro _
  apply (bindSocket_steady K _ _).bind
  intro _
  exact listenSocket_steady K _ _

theorem accept_kept (listener result : ι) :
    Triple (fun w => Kept none w ∧ w.objects result = none) (TcpListener.accept K listener result)
      (fun _ => Kept none) (fun _ => Kept none) := by
  apply Triple.get_bind
  intro w₀ ⟨hw₀, hresult⟩
  refine Triple.ite (fun _ => ?_) fun _ => Triple.throw ?_
  · have haccepted : Triple (Steady none w₀.objects) _ _ _ :=
      acceptSocket_steady K (w₀.handle listener)
    apply (haccepted.consequence _ (fun _ _ h => h) fun _ _ h => h.1).bind
    · intro clientHandle
      apply Triple.modify
      intro w ⟨hsome, hw, hobjects⟩
      obtain ⟨d, rfl⟩ := Option.isSome_iff_exists.mp hsome
      have hnone : w.handle result = none := by
        simp [World.handle, hobjects, hresult, invalidSocket]
      have hnew : Kept (some d) (w.setObject result (some { kind := .tcpSocket })) :=
        hw.congr (hand_setObject hnone rfl) (fun _ => Or.inl rfl) rfl rfl
      apply hnew.adopted <;> simp [World.setObject, World.handle, invalidSocket]
    · rintro _ rfl
      exact ⟨hw₀, rfl⟩
  · rintro _ rfl
    exact hw₀

end Objects

omit [DecidableEq ι] in
theorem isSome_of_isA {w : World ι} {kind : Kind} {i : ι} (h : w.isA kind i = true) :
    (w.objects i).isSome := by
  rcases ho : w.objects i with _ | object
  · simp [World.isA, ho] at h
  · rfl

omit [DecidableEq ι] in
theorem handle_of_none {w : World ι} {i : ι} (h : w.objects i = none) : w.handle i = none := by
  simp [World.handle, h, invalidSocket]

theorem kept_after {w : World ι} {i : ι} {m : Native ι Unit} {P : World ι → Prop}
    (hm : Triple P m (fun _ => Present i) (fun _ => NotOpen i)) (hw : P w) :
    Kept none (call m w).2 :=
  (hm.consequence (fun _ h => h) (fun _ _ h => h.1) fun _ _ h => h.1.1).after hw

theorem kept_moveConstruct {w : World ι} (hw : Kept none w) {kind : Kind} {this other : ι}
    (hthis : w.objects this = none) (hother : (w.objects other).isSome) :
    Kept none (call (moveConstruct kind this other) w).2 := by
  have hne : other ≠ this := by
    rintro rfl
    rw [hthis] at hother
    cases hother
  have hnew : Kept none (w.setObject this (some { kind })) :=
    hw.congr (hand_setObject (handle_of_none hthis) rfl) (fun _ => Or.inl rfl) rfl rfl
  apply hnew.moved
  · simp [World.setObject]
  · simpa [World.setObject, Function.update_of_ne hne] using hother
  · simp [World.setObject, World.handle, invalidSocket]

theorem kept_moveAssign {w : World ι} (hw : Kept none w) {this other : ι}
    (hthis : (w.objects this).isSome) (hother : (w.objects other).isSome) :
    Kept none (call (moveAssign this other) w).2 := by
  by_cases hne : this ≠ other
  · simp only [moveAssign, if_pos hne, call_bind, call_closeHandle, call_modify]
    exact hw.afterClose.moved (isSome_afterClose.trans hthis) (isSome_afterClose.trans hother)
      handle_afterClose
  · rw [moveAssign, if_neg hne]
    exact hw

theorem kept_destroy {w : World ι} (hw : Kept none w) (this : ι) :
    Kept none (call (destroy this) w).2 := by
  simp only [destroy, call_bind, call_closeHandle, call_modify]
  exact hw.afterClose.congr (hand_setObject handle_afterClose rfl) (fun _ => Or.inl rfl) rfl rfl

theorem kept_foreign {w : World ι} (hw : Kept none w) {d : ℕ} {owner : Owner}
    (hbefore : ¬ Mine (w.descriptors d)) (hafter : ¬ Mine owner) :
    Kept none { w with descriptors := Function.update w.descriptors d owner } := by
  refine hw.congr rfl (fun d' => ?_) rfl rfl
  rcases eq_or_ne d' d with rfl | hne
  · exact Or.inr ⟨hbefore, by simpa using hafter⟩
  · exact Or.inl (Function.update_of_ne hne ..)

/-- Every call keeps the books, whatever the kernel answers. -/
theorem kept_call (K : Kernel ι) {w : World ι} (hw : Kept none w) {a : Action ι}
    (ha : a.WellTyped w) : Kept none (call (a.call K) w).2 := by
  cases a with
  | construct kind this =>
    exact hw.congr (hand_setObject (handle_of_none ha) rfl) (fun _ => Or.inl rfl) rfl rfl
  | moveConstruct kind this other =>
    cases kind <;> exact kept_moveConstruct hw ha.1 (isSome_of_isA ha.2)
  | moveAssign kind this other =>
    cases kind <;> exact kept_moveAssign hw (isSome_of_isA ha.1) (isSome_of_isA ha.2)
  | close kind this =>
    have hclosed : Kept none (call (closeHandle this) w).2 := by
      rw [call_closeHandle]
      exact hw.afterClose
    cases kind <;> exact hclosed
  | destroy kind this => cases kind <;> exact kept_destroy hw this
  | connect this remoteEndpoint =>
    exact kept_after (connect_present K remoteEndpoint) ⟨hw, isSome_of_isA ha⟩
  | «open» this =>
    by_cases hopen : w.isOpen this
    · simpa [Action.call, UdpSocket.open, hopen] using hw
    · have hnone : w.handle this = none := by
        simpa [World.isOpen, isValid, invalidSocket] using hopen
      exact kept_after (open_present K) ⟨⟨hw, isSome_of_isA ha⟩, hnone⟩
  | bind this localEndpoint =>
    exact kept_after (bind_present K localEndpoint) ⟨hw, isSome_of_isA ha⟩
  | listen this localEndpoint backlog =>
    by_cases hb : backlog ≤ 0
    · simpa [Action.call, TcpListener.listen, hb] using hw
    · exact kept_after (listen_present K localEndpoint (not_le.mp hb)) ⟨hw, isSome_of_isA ha⟩
  | accept this result => exact (accept_kept K this result).after ⟨hw, ha.2⟩
  | foreignOpen d =>
    exact kept_foreign hw (by simp [show w.descriptors d = .nobody from ha, Mine]) (by simp [Mine])
  | foreignClose d =>
    exact kept_foreign hw (by simp [show w.descriptors d = .foreign from ha, Mine]) (by simp [Mine])

theorem kept_start : Kept none ({} : World ι) := by
  refine ⟨fun _ => .absent, Custody.accepts_nil, ⟨?_, ?_, ?_, ?_⟩, fun n => ?_, nofun⟩
  · rintro (_ | i) d h <;> simp [hand, World.handle, invalidSocket] at h
  · exact fun _ _ h => h.elim
  · exact fun _ h => h.elim
  · exact fun _ o _ h => absurd h.symm (Custody.Status.ofHolder_ne_absent o)
  · simp

theorem kept_of_reachable {K : Kernel ι} {w : World ι} (h : (system K).Reachable w) :
    Kept none w := by
  apply h.invariant kept_start
  intro u a v hu hv
  simp only [system] at hv
  split_ifs at hv with ha
  exact Option.some.inj hv ▸ kept_call K hu ha

/-- The ledger is determined by the objects: who holds a handle, and that all others of
the library are closed. -/
theorem Books.held_iff {w : World ι} {c : Custody.Ledger ι Owner} (h : Books none w c) (n : ℕ)
    (i : ι) : c (.library n) = .held i ↔
      ∃ d, w.handle i = some d ∧ w.descriptors d = .library n := by
  constructor
  · intro hc
    obtain ⟨d, hd⟩ := h.agrees.named (.library n) (some i) trivial hc
    have hmine : Mine (w.descriptors d) := by simp [hd, Mine]
    exact ⟨d, (h.agrees.holds_iff (some i) d hmine).mpr (hd ▸ hc), hd⟩
  · rintro ⟨d, hi, hd⟩
    have hmine : Mine (w.descriptors d) := by simp [hd, Mine]
    exact hd ▸ (h.agrees.holds_iff (some i) d hmine).mp hi

theorem Books.released_of_no_objects {w : World ι} {c : Custody.Ledger ι Owner}
    (h : Books none w c) (hgone : ∀ i, w.objects i = none) {n : ℕ} (hn : n < w.creations) :
    c (.library n) = .released := by
  rcases hc : c (.library n) with _ | _ | i | _
  · exact absurd ((h.absent_iff n).mp hc) (not_le.mpr hn)
  · obtain ⟨d, hd⟩ := h.agrees.named (.library n) none trivial hc
    have hmine : Mine (w.descriptors d) := by simp [hd, Mine]
    exact absurd ((h.agrees.holds_iff none d hmine).mpr (hd ▸ hc)) (by simp [hand])
  · obtain ⟨d, hd, -⟩ := (h.held_iff n i).mp hc
    rw [handle_of_none (hgone i)] at hd
    cases hd
  · rfl

/-- The calls that fail leave the object not open; the two that refuse at once leave all
as it was. -/
structure FailsClosed (K : Kernel ι) (w : World ι) : Prop where
  connect : ∀ i e error w', w.isA .tcpSocket i →
    (TcpSocket.connect K i e).call w = (.error error, w') → w'.isOpen i = false
  «open» : ∀ i error w', w.isA .udpSocket i → w.isOpen i = false →
    (UdpSocket.open K i).call w = (.error error, w') → w'.isOpen i = false
  openTwice : ∀ i, w.isA .udpSocket i → w.isOpen i = true →
    (UdpSocket.open K i).call w = (.error UdpSocket.alreadyOpen, w)
  bind : ∀ i e error w', w.isA .udpSocket i →
    (UdpSocket.bind K i e).call w = (.error error, w') → w'.isOpen i = false
  listen : ∀ i e backlog error w', w.isA .tcpListener i → 0 < backlog →
    (TcpListener.listen K i e backlog).call w = (.error error, w') → w'.isOpen i = false
  noBacklog : ∀ i e backlog, w.isA .tcpListener i → backlog ≤ 0 →
    (TcpListener.listen K i e backlog).call w = (.error TcpListener.invalidBacklog, w)

omit [DecidableEq ι] in
theorem isOpen_eq_false {w : World ι} {i : ι} : w.isOpen i = false ↔ w.handle i = none := by
  simp [World.isOpen, isValid, invalidSocket]

theorem failsClosed (K : Kernel ι) {w : World ι} (hw : Kept none w) : FailsClosed K w where
  connect := fun i e _ _ hi hcall =>
    isOpen_eq_false.mpr ((connect_present K e).thrown ⟨hw, isSome_of_isA hi⟩ hcall).2
  «open» := fun i _ _ hi hopen hcall => isOpen_eq_false.mpr
    ((open_present K).thrown ⟨⟨hw, isSome_of_isA hi⟩, isOpen_eq_false.mp hopen⟩ hcall).2
  openTwice := fun i _ hopen => by simp [UdpSocket.open, hopen]
  bind := fun i e _ _ hi hcall =>
    isOpen_eq_false.mpr ((bind_present K e).thrown ⟨hw, isSome_of_isA hi⟩ hcall).2
  listen := fun i e _ _ _ hi hb hcall =>
    isOpen_eq_false.mpr ((listen_present K e hb).thrown ⟨hw, isSome_of_isA hi⟩ hcall).2
  noBacklog := fun i e backlog _ hb => by simp [TcpListener.listen, hb]

/-- Over any kernel and any program: every open handle of the library has exactly one
holder, a handle is closed only by the one who has it and once for each creation, failed
calls leave their object not open, and when no object is left every handle is closed. -/
theorem handles_owned_linearly (K : Kernel ι) {w : World ι} (h : (system K).Reachable w) :
    (∀ d n, w.descriptors d = .library n → ∃! i, w.handle i = some d) ∧
    (∀ i d, w.handle i = some d → ∃ n, w.descriptors d = .library n) ∧
    (∀ i j d, w.handle i = some d → w.handle j = some d → i = j) ∧
    (∃ c, Custody.Accepts w.custody c ∧ ∀ n i, c (.library n) = .held i ↔
      ∃ d, w.handle i = some d ∧ w.descriptors d = .library n) ∧
    (∀ before after caller owner, w.custody = before ++ .release caller owner :: after →
      (∃ n, owner = .library n) ∧
      ∃ c, Custody.Accepts before c ∧ c owner = .ofHolder caller) ∧
    (∀ n, Custody.releases (.library n) w.custody ≤ 1) ∧
    FailsClosed K w ∧
    ((∀ i, w.objects i = none) → ∀ n < w.creations,
      Custody.releases (.library n) w.custody = 1) := by
  have hkept := kept_of_reachable h
  obtain ⟨c, hbooks⟩ := hkept
  have hunique : ∀ i j d, w.handle i = some d → w.handle j = some d → i = j := by
    intro i j d hi hj
    have hij : (some i : Option ι) = some j := hbooks.agrees.holder_unique (o := some i) hi hj
    exact Option.some.inj hij
  have hreleases : ∀ n, Custody.releases (.library n) w.custody =
      if c (.library n) = .released then 1 else 0 :=
    fun n => hbooks.accepted.releases_eq _
  refine ⟨?_, ?_, hunique, ⟨c, hbooks.accepted, hbooks.held_iff⟩, ?_, ?_,
    failsClosed K ⟨c, hbooks⟩, ?_⟩
  · intro d n hd
    have hmine : Mine (w.descriptors d) := by simp [hd, Mine]
    obtain ⟨o, ho⟩ := hbooks.agrees.found d hmine
    have hhand := (hbooks.agrees.holds_iff o d hmine).mpr ho
    cases o with
    | none => cases hhand
    | some i => exact ⟨i, hhand, fun j hj => hunique j i d hj hhand⟩
  · exact fun i d hi => mine_iff.mp (hbooks.agrees.owned (some i) d hi)
  · intro before after caller owner hlog
    constructor
    · exact mine_iff.mp (hbooks.mine (.release caller owner) (by simp [hlog]))
    · exact (hlog ▸ hbooks.accepted).needs
  · intro n
    rw [hreleases n]
    split <;> omega
  · intro hgone n hn
    rw [hreleases n, if_pos (hbooks.released_of_no_objects hgone hn)]

/-- A kernel with two descriptors to give, which lets nobody connect to port 1. -/
def smallKernel (ι : Type) : Kernel ι where
  apple := false
  handleFor := fun w _ =>
    if w.descriptors 3 = .nobody then .ok 3
    else if w.descriptors 4 = .nobody then .ok 4
    else .error 24
  outcome := fun _ c =>
    match c with
    | .connect _ address => if address.port = 1 then .error 111 else .ok ()
    | _ => .ok ()
  unused := by
    intro w c d h
    split_ifs at h with h₃ h₄
    · cases h
      exact h₃
    · cases h
      exact h₄

/-- A refused connection, a handle that is handed over, and one that is used again. -/
def handover (client listener taker : ι) : List (Action ι) :=
  [.construct .tcpSocket client, .connect client ⟨"10.0.0.1", 1⟩,
    .connect client ⟨"10.0.0.1", 80⟩, .construct .tcpListener listener,
    .listen listener ⟨"0.0.0.0", 8080⟩ 8, .moveAssign .tcpSocket client client,
    .moveConstruct .tcpSocket taker client, .connect client ⟨"10.0.0.1", 80⟩,
    .close .tcpSocket taker, .connect client ⟨"10.0.0.1", 80⟩, .destroy .tcpSocket taker,
    .destroy .tcpListener listener, .destroy .tcpSocket client]

theorem handles_owned_linearly_handover :
    ((system (smallKernel (Fin 3))).after (handover 0 1 2)).creations = 4 ∧
    ∀ n < ((system (smallKernel (Fin 3))).after (handover 0 1 2)).creations,
      Custody.releases (.library n)
        ((system (smallKernel (Fin 3))).after (handover 0 1 2)).custody = 1 :=
  ⟨by decide, (handles_owned_linearly _ (System.reachable_after (handover 0 1 2))).2.2.2.2.2.2.2
    (by decide)⟩

end Obz.Transport.Handles
