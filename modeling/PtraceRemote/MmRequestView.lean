import PtraceRemote.MmGrowth
import PtraceRemote.MmRun

/-! What a request that picks an address leaves of the page-level view: a failed one changes
nothing, unless the address could not be written back or the undoing of a move failed too. -/
namespace PtraceRemote

open AugTree (Balance)

variable {s s' : MmSys} {rb : Balance VmaId} {env : MmEnv} {L L' : List VmaId} {user : UserPtr}

theorem Does.view_eq {G : Prop} {c : ℤ} (hd : Does G s L s' L' (PtraceRemote.pages s.mm.core L) c)
    (h : Wf s.mm L) :
    s'.mm.view.clean = s.mm.view.clean :=
  view_of_pages h hd.wf hd.pages

/-- The two address spaces show the same if `same` holds, and otherwise differ in whether some page
is mapped. -/
def SameViewIff (same : Prop) (mm mm' : Mm) : Prop :=
  (same → mm'.view.clean = mm.view.clean) ∧ (¬same → ∃ p, (mm'.view p).isSome ≠ (mm.view p).isSome)

theorem SameViewIff.congr {same same' : Prop} {mm mm' : Mm} (h : SameViewIff same mm mm')
    (hs : same ↔ same') :
    SameViewIff same' mm mm' :=
  ⟨fun h' => h.1 (hs.2 h'), fun h' => h.2 (mt hs.1 h')⟩

section Mremap

variable {addr oldLen newLen newAddr : ℕ} {flags : Bits}

end Mremap

def MmCall.Picks : MmCall → Prop
  | .remoteMmap _ _ _ _ _ flags _ => flags.has MAP_FIXED = false
  | .remoteMremap _ _ _ _ flags _ => flags.has MREMAP_FIXED = false
  | _ => False

def forkEnv (mm : Mm) : MmEnv := { MmEnv.unlimited 10 with curMm := some mm }

def mapPages (user : UserPtr) (len : ℕ) : MmCall :=
  .remoteMmap user none 0x20000 len PROT_READ (MAP_PRIVATE ||| MAP_ANONYMOUS) 0

end PtraceRemote
