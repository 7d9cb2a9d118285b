import NuttxApps.Framework.Replay

/-!
# The two boot slots of `bootctl`

`bootctl` keeps three flags for each of two slots and one for a trial boot as properties. Each operation reads all seven
and writes them back one after the other. `Sound` is the invariant of operations that complete (`sound_replay`).
-/

namespace NuttxApps.Bootctl

open Replay

inductive SlotId
  | a
  | b
deriving DecidableEq

def SlotId.other : SlotId → SlotId
  | .a => .b
  | .b => .a

structure Slot where
  (active bootable successful : Bool)
deriving DecidableEq

/-- `struct bootctl_s`, and the properties that hold it; one that is not there is read as false. -/
structure Config where
  (a b : Slot)
  trial : Bool
deriving DecidableEq

def Config.empty : Config := ⟨⟨false, false, false⟩, ⟨false, false, false⟩, false⟩

variable (c : Config)

def Config.slot : SlotId → Slot
  | .a => c.a
  | .b => c.b

section Decidable

instance (p : SlotId → Prop) [DecidablePred p] : Decidable (∀ x, p x) :=
  decidable_of_iff (p .a ∧ p .b) ⟨fun h x => x.rec h.1 h.2, fun h => ⟨h .a, h .b⟩⟩

instance (p : Slot → Prop) [DecidablePred p] : Decidable (∀ s, p s) :=
  decidable_of_iff (∀ active bootable successful, p ⟨active, bootable, successful⟩)
    ⟨fun h s => h s.active s.bootable s.successful, fun h _ _ _ => h _⟩

instance (p : Config → Prop) [DecidablePred p] : Decidable (∀ c, p c) :=
  decidable_of_iff (∀ a b trial, p ⟨a, b, trial⟩) ⟨fun h c => h c.a c.b c.trial, fun h _ _ _ => h _⟩

end Decidable

/-- `persist.boot.slot_a.active` to `persist.boot.try`. -/
inductive Property
  | aActive
  | aBootable
  | aSuccessful
  | bActive
  | bBootable
  | bSuccessful
  | trial
deriving DecidableEq

def Config.set : Property × Bool → Config
  | (.aActive, v) => { c with a := { c.a with active := v } }
  | (.aBootable, v) => { c with a := { c.a with bootable := v } }
  | (.aSuccessful, v) => { c with a := { c.a with successful := v } }
  | (.bActive, v) => { c with b := { c.b with active := v } }
  | (.bBootable, v) => { c with b := { c.b with bootable := v } }
  | (.bSuccessful, v) => { c with b := { c.b with successful := v } }
  | (.trial, v) => { c with trial := v }

variable (boot : Config)

def writeConfig : List (Property × Bool) :=
  [(.aActive, boot.a.active), (.aBootable, boot.a.bootable), (.aSuccessful, boot.a.successful),
    (.bActive, boot.b.active), (.bBootable, boot.b.bootable), (.bSuccessful, boot.b.successful),
    (.trial, boot.trial)]

def Config.upTo (k : Nat) (c boot : Config) : Config where
  a.active := if 0 < k then boot.a.active else c.a.active
  a.bootable := if 1 < k then boot.a.bootable else c.a.bootable
  a.successful := if 2 < k then boot.a.successful else c.a.successful
  b.active := if 3 < k then boot.b.active else c.b.active
  b.bootable := if 4 < k then boot.b.bootable else c.b.bootable
  b.successful := if 5 < k then boot.b.successful else c.b.successful
  trial := if 6 < k then boot.trial else c.trial

theorem replay_take_writeConfig (c boot : Config) : ∀ k, replay Config.set c ((writeConfig boot).take k) = c.upTo k boot
  | 0 | 1 | 2 | 3 | 4 | 5 | 6 => rfl
  | k + 7 => by simp [writeConfig, Config.upTo, replay, Config.set]

/-- `bootctl_update`: the slot that is not active is cleared. -/
def bootctlUpdate : List (Property × Bool) :=
  if boot.a.active then
    writeConfig { boot with b := { active := false, bootable := false, successful := false } }
  else
    writeConfig { boot with a := { active := false, bootable := false, successful := false } }

def bootctlDone : List (Property × Bool) :=
  if boot.a.active then
    writeConfig
      { boot with
        a := { boot.a with active := false }
        b := { boot.b with active := true, bootable := true } }
  else
    writeConfig
      { boot with
        a := { boot.a with active := true, bootable := true }
        b := { boot.b with active := false } }

/-- `bootctl_success`: slot B is meant wherever slot A is not active. -/
def bootctlSuccess : List (Property × Bool) :=
  if boot.a.active then
    if boot.a.successful then [] else
      writeConfig { boot with a := { boot.a with successful := true }, trial := false }
  else
    if boot.b.successful then [] else
      writeConfig { boot with b := { boot.b with successful := true }, trial := false }

def successSlot : SlotId × Config :=
  if boot.a.active && boot.a.successful then (.a, boot)
  else if boot.b.active && boot.b.successful then (.b, boot)
  else if boot.a.successful then (.a, { boot with a := { boot.a with active := true } })
  else if boot.b.successful then (.b, { boot with b := { boot.b with active := true, bootable := true } })
  else (.a, { boot with a := { boot.a with active := true, bootable := true } })

/-- `bootctl_boot`: the slot that is booted, and the configuration written before. -/
def bootctlBoot : SlotId × Config :=
  if !boot.a.active && !boot.b.active then
    successSlot { Config.empty with a := { active := true, bootable := true, successful := false }, trial := true }
  else if boot.a.active && boot.a.bootable && !boot.a.successful then
    if boot.trial then successSlot { boot with a := { boot.a with active := false, bootable := false } }
    else (.a, { boot with trial := true })
  else if boot.b.active && boot.b.bootable && !boot.b.successful then
    if boot.trial then successSlot { boot with b := { boot.b with active := false, bootable := false } }
    else (.b, { boot with trial := true })
  else successSlot boot

inductive Op
  | update
  | done
  | boot
  | success
deriving DecidableEq

instance (p : Op → Prop) [DecidablePred p] : Decidable (∀ op, p op) :=
  decidable_of_iff (p .update ∧ p .done ∧ p .boot ∧ p .success)
    ⟨fun h op => op.rec h.1 h.2.1 h.2.2.1 h.2.2.2, fun h => ⟨h .update, h .done, h .boot, h .success⟩⟩

def Op.writes : Op → List (Property × Bool)
  | .update => bootctlUpdate c
  | .done => bootctlDone c
  | .boot => writeConfig (bootctlBoot c).2
  | .success => bootctlSuccess c

def Op.apply (op : Op) : Config := replay Config.set c (op.writes c)

def spare : SlotId := if c.a.active then .b else .a

def ActiveMarked : Prop := c.a.active ∧ c.a.successful ∨ c.b.active ∧ c.b.successful

structure Sound (c : Config) : Prop where
  one : ¬ (c.a.active ∧ c.b.active)
  bootableA : c.a.active ∨ c.a.successful → c.a.bootable
  bootableB : c.b.active → c.b.bootable
  trial : c.trial → ¬ (c.a.successful ∧ c.b.successful)

instance (c : Config) : Decidable (ActiveMarked c) := inferInstanceAs (Decidable (_ ∨ _))

instance (c : Config) : Decidable (Sound c) :=
  decidable_of_iff
    (¬ (c.a.active ∧ c.b.active) ∧ (c.a.active ∨ c.a.successful → c.a.bootable) ∧ (c.b.active → c.b.bootable) ∧
      (c.trial → ¬ (c.a.successful ∧ c.b.successful)))
    ⟨fun ⟨h₁, h₂, h₃, h₄⟩ => ⟨h₁, h₂, h₃, h₄⟩, fun h => ⟨h.one, h.bootableA, h.bootableB, h.trial⟩⟩

theorem sound_apply : ∀ c op, Sound c → Sound (Op.apply c op) := by decide +kernel

def history (ops : List Op) : Config := replay Op.apply Config.empty ops

theorem sound_history (ops : List Op) : Sound (history ops) :=
  replay_keeps (fun c op _ h => sound_apply c op h) (by decide)

end NuttxApps.Bootctl
