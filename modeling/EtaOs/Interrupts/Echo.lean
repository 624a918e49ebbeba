import EtaOs.Input.Typing
import EtaOs.Interrupts.KeyHandling

/-!
# From the keyboard to the framebuffer

The keys that are handled are the first of those that are pressed, and the framebuffer shows what
is written by them.  So it shows what is written by a part of the keys at any moment, and, when
the processor and the keyboard go on, what is written by all of them.

This puts two results together that know nothing of each other.  One is about the order in which
keys are handled while interrupts come at any moment, and the other about what a sequence of keys
does to the framebuffer; the interface between them is the sequence of scancodes.

* `Echoed`, `keys_echoed`: what the framebuffer shows in every interleaving.
-/

namespace EtaOs

open BasicRenderer Pic8259 PIC Simulation

/-- The framebuffer shows what is written by these scancodes, on top of what the keyboard at first
showed with its cursor at cell `m`. -/
def ShowsKeys (b : Board) (k₀ : Keyboard) (m : ℕ) (s : System) (scancodes : List (BitVec 8)) :
    Prop :=
  ShowsText b.target k₀.globalRenderer.pixels s.keyboard.globalRenderer
    (writtenBy b.target b.next k₀.shift m (scancodes.map Typed.key))

/-- **Keys are echoed.**  The framebuffer shows what is written by the first of the keys that have
been pressed, and when the processor and the keyboard go on, by all of them. -/
structure Echoed (b : Board) (k₀ : Keyboard) (m : ℕ) (s : System) : Prop where
  first : ∃ scancodes, scancodes <+: s.pressed ∧ ShowsKeys b k₀ m s scancodes
  all : s.Booted ∨ s.full = false →
    ∃ l t, Steps (GoesOn b) s l t ∧ t.pressed = s.pressed ∧ ShowsKeys b k₀ m t s.pressed

section Results

variable {b : Board} {s u : System} {k₀ : Keyboard} {m : ℕ} {events : List Event}

/-- The framebuffer shows what is written by the keys that have been handled. -/
theorem DeliveryInv.showsKeys (h : DeliveryInv b k₀ false s) (hcols : 0 < cols b.target)
    (hdvd : 8 ∣ b.target.targetFramebuffer.width.toNat)
    (hpps : b.target.targetFramebuffer.width.toNat ≤
      b.target.targetFramebuffer.pixelsPerScanline.toNat)
    (hcursor : k₀.globalRenderer.cursorPosition = gridCell b.target 0 m)
    (hfew : m / cols b.target + s.pressed.length + 1 < 2 ^ 28) :
    ShowsKeys b k₀ m s s.handled := by
  have hhandled : s.handled.length ≤ s.pressed.length := by
    rw [h.once, List.append_assoc, List.append_assoc, List.length_append]
    exact Nat.le_add_right _ _
  have hkeys := length_typedKeys_key b.next k₀.shift s.handled
  unfold ShowsKeys
  rw [h.shown]
  exact (shows_typed hcols hdvd hpps hcursor (staysLow_of_length hcols (by omega))).showsText

/-- **Keys are echoed**, in every interleaving of the accesses to the ports, of keys, of the edges
of the timer and other devices, and of the handlers, from the first access of `remap_pic` on, with
the register of the keyboard empty when the first controller is reset, on a framebuffer whose
width is a multiple of a cell's, unless there are so many keys that they reach the line where a
loop bound wraps. -/
theorem keys_echoed (hne : b.handlers.keyboardIntHandler ≠ b.handlers.pitIntHandler)
    (htimer : (frameTable b.kernel 0x20).ist = 0) (hkeys : (frameTable b.kernel 0x21).ist = 0)
    (hcols : 0 < cols b.target) (hdvd : 8 ∣ b.target.targetFramebuffer.width.toNat)
    (hpps : b.target.targetFramebuffer.width.toNat ≤
      b.target.targetFramebuffer.pixelsPerScanline.toNat)
    (hcursor : s.keyboard.globalRenderer.cursorPosition = gridCell b.target 0 m)
    (hstart : AtRemap s) (hrun : Steps (DeliveryStep b false) s events u)
    (hfew : m / cols b.target + u.pressed.length + 1 < 2 ^ 28) : Echoed b s.keyboard m u := by
  have h := DeliveryInv.of_run hne htimer hkeys hstart hrun
  constructor
  · refine ⟨u.handled, ?_, h.showsKeys hcols hdvd hpps hcursor hfew⟩
    rw [h.once, List.append_assoc, List.append_assoc]
    exact List.prefix_append _ _
  · intro hready
    obtain ⟨l, t, hgoes, -, hpressed, hhandled⟩ := h.allHandled hne htimer hkeys hready
    have ht : DeliveryInv b s.keyboard false t :=
      hgoes.invariant (fun _ _ _ _ _ => trivial)
        (fun _ _ _ hs hstep _ => hs.step hne htimer hkeys hstep.1) trivial h
    refine ⟨l, t, hgoes, hpressed, ?_⟩
    have hshows := ht.showsKeys hcols hdvd hpps hcursor (hpressed.symm ▸ hfew)
    rwa [hhandled] at hshows

/-- A key that is pressed before the first access is on the screen behind `sti`. -/
theorem keys_echoed_handedOver : ∃ u, Steps (DeliveryStep clearBoard false) (handedOver false)
    [.press 0x1e] u ∧ Echoed clearBoard (handedOver false).keyboard 0 u ∧
      ∃ l t, Steps (GoesOn clearBoard) u l t ∧
        ShowsKeys clearBoard (handedOver false).keyboard 0 t [0x1e] := by
  have hrun : Steps (DeliveryStep clearBoard false) (handedOver false) [.press 0x1e] _ :=
    Steps.single ⟨Step.press (handedOver false) 0x1e, trivial, trivial⟩
  have h := keys_echoed (m := 0) (by decide) clearBoard_ist.1 clearBoard_ist.2 (by decide)
    (by decide) (by decide) rfl (atRemap_handedOver false) hrun (by decide)
  obtain ⟨l, t, hgoes, -, hshows⟩ := h.all (Or.inr rfl)
  exact ⟨_, hrun, h, l, t, hgoes, hshows⟩

end Results

end EtaOs
