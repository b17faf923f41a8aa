import Sdfirm.Impl.Hid
import Sdfirm.Proof.Framework.Runs

/-!
# What the HID class has to withstand

Whatever the host asks for and whenever the endpoint is polled, no `BUG_ON`
fails, the arrays are indexed by registered reports, and a report is marked
running only while a request is submitted (`Sound`). `Regular` leaves out the
steps at which the class does not achieve this.
-/

namespace Sdfirm.Hid

structure Sound (s : State) : Prop where
  stray : s.stray = []
  running : ∀ c ∈ s.slots, c.running = true → s.inflight = true

/-- A class request to the interface. -/
def Setup.isClass (q : Setup) (request : UInt8) : Prop := q.recp = .interface ∧ q.type = .cls ∧ q.request = request

/-- `GET_DESCRIPTOR` for the configuration or the HID descriptor. -/
def Setup.asksHid (q : Setup) : Prop :=
  q.type = .standard ∧ q.request = 0x06 ∧ ((q.recp = .interface ∧ (q.hi = 0x02 ∨ q.hi = 0x21)) ∨ (q.recp = .device ∧ q.hi = 0x02))

/-- `GET_DESCRIPTOR` for a report descriptor. -/
def Setup.asksReport (q : Setup) : Prop := q.type = .standard ∧ q.request = 0x06 ∧ q.recp = .interface ∧ q.hi = 0x22

/-- The callback `ctrl` exists and sends short items. -/
def Report.describes (r : Report) : Prop := ∃ items ∈ r.ctrl, ∀ item ∈ items, item.format = .short

/-- The steps that the class withstands. -/
def Regular (s : State) : Op → Prop
  | .control q =>
    (q.isClass 0x02 → q.lo ≠ 0) ∧ (q.asksHid → ∀ c ∈ s.slots, c.report.configLen.isSome = true) ∧
      (q.asksReport → ∀ c ∈ s.slots[q.lo]?, c.report.describes)
  -- `hid_poll_duration` raises the interrupt without a test for one that is pending or running.
  | .poll jiffies _ _ => ∀ c ∈ s.slots, hidInterruptBusy c = true → c.expired jiffies = false
  | .complete => True

/-- The states reached by regular steps from a class that has been started. -/
abbrev Runs (s₀ : State) : State → Prop := Framework.Run step (· = s₀) Regular

end Sdfirm.Hid

/-!
## What the host sees of a key

`Host` follows a key from its press, once that has been accepted, to the report
without a key after its release: until then each report is that of the key, and
no other key is accepted. `Shown` says that what has been seen so far follows
`Host`, that the keyboard is not busy without a key, and that a report that is
due is the next one the host receives.
-/

namespace Sdfirm.HidKbd

variable (n : NrKeys)

/-- The report with a key. -/
def keyReport (key : Byte) : List Byte := [hidKbdKeyCtrls n key, 0, hidKbdKeyCode n key, 0, 0, 0, 0, 0]

/-- The report with no key. -/
def noKeyReport : List Byte := [0, 0, 0, 0, 0, 0, 0, 0]

/-- What is known of the key whose press has been accepted. -/
inductive Host where
  /-- There is none. -/
  | none
  /-- It has not been reported yet. -/
  | pressed (key : Byte)
  /-- It has been reported. -/
  | held (key : Byte)
  /-- It has been released before it was reported. -/
  | early (key : Byte)
  /-- It has been reported and released. -/
  | released (key : Byte)
  deriving DecidableEq, Repr

namespace Host

/-- The key is released. -/
def up (key : Byte) : Host → Host
  | .pressed k => if key = k then .early k else .pressed k
  | .held k => if key = k then .released k else .held k
  | h => h

/-- A report is received. -/
def report (bytes : List Byte) : Host → Option Host
  | .none => if bytes = noKeyReport then some .none else Option.none
  | .pressed k => if bytes = keyReport n k then some (.held k) else Option.none
  | .held k => if bytes = keyReport n k then some (.held k) else Option.none
  | .early k => if bytes = keyReport n k then some (.released k) else Option.none
  | .released _ => if bytes = noKeyReport then some .none else Option.none

def step (h : Host) : Seen → Option Host
  | .accepted key => if h = .none then some (.pressed key) else Option.none
  | .up key => some (h.up key)
  | .report bytes => h.report n bytes

/-- What is known after all that has been seen. -/
def after (seen : List Seen) : Option Host := seen.foldlM (step n) .none

/-- What is known after the report that is due, if there is one. -/
def due : Host → Option Host
  | .pressed k => some (.held k)
  | .early k => some (.released k)
  | .released _ => some .none
  | .none => Option.none
  | .held _ => Option.none

end Host

/-- The endpoint is served once. -/
def serve (jiffies : UInt32) (s : Kbd) : Option Kbd := (kbdPoll jiffies true s).map fun s => kbdComplete (kbdHandle n s)

/-- A poll at which the idle duration is over finds the report neither busy nor that of a key that has been reported
and is still held. -/
def Quiet (s : Kbd) : Op → Prop
  | .poll jiffies _ => ∀ c ∈ s.hid.slots, c.expired jiffies = true →
    Hid.hidInterruptBusy c = false ∧ (s.last.busy = true → s.last.down = true ∨ s.last.up = true)
  | _ => True

/-- The states reached by such steps. -/
abbrev Runs : Kbd → Prop := Framework.Run (step n) (fun s => hidKbdInit = some s) Quiet

/-- The host sees keys as they are pressed and released. -/
def Shown (s : Kbd) : Prop :=
  ∃ h, Host.after n s.seen = some h ∧ (h = .none → s.last.busy = false) ∧
    (∀ op, Quiet s op → (step n s op).isSome = true) ∧
    ∀ h' ∈ h.due, ∀ jiffies, Quiet s (.poll jiffies true) →
      ∃ s', serve n jiffies s = some s' ∧ Host.after n s'.seen = some h'

end Sdfirm.HidKbd
