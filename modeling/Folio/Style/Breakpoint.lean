import Folio.Text.Basic

set_option autoImplicit false

/-!
# Breakpoints

Widths of the page, the widest first. Styles start from the desktop and narrow down, so a value that
a breakpoint leaves open is the one of the nearest wider breakpoint.
-/
namespace Folio.Style

inductive Breakpoint where
  | desktop
  | tablet
  | mobile
  | mobilePortrait
deriving DecidableEq, Repr

namespace Breakpoint

def parse? (s : Text) : Option Breakpoint :=
  if s = "desktop" then some desktop
  else if s = "tablet" then some tablet
  else if s = "mobile" then some mobile
  else if s = "mobilePortrait" || s = "mobile_portrait" || s = "mobile-portrait" then
    some mobilePortrait
  else none

def wider? : Breakpoint → Option Breakpoint
  | desktop => none
  | tablet => some desktop
  | mobile => some tablet
  | mobilePortrait => some mobile

def maxWidth? : Breakpoint → Option Nat
  | desktop => none
  | tablet => some 991
  | mobile => some 767
  | mobilePortrait => some 479

def mediaQuery? (b : Breakpoint) : Option Text :=
  b.maxWidth?.map fun px => "@media (max-width: " ++ Text.ofNat px ++ "px)"

def narrow : List Breakpoint := [tablet, mobile, mobilePortrait]

end Breakpoint

structure Responsive (α : Type) where
  desktop : α
  tablet : Option α
  mobile : Option α
  mobilePortrait : Option α
deriving DecidableEq, Repr

namespace Responsive

variable {α : Type}

def constant (a : α) : Responsive α := ⟨a, none, none, none⟩

def set (v : Responsive α) : Breakpoint → α → Responsive α
  | .desktop, a => { v with desktop := a }
  | .tablet, a => { v with tablet := some a }
  | .mobile, a => { v with mobile := some a }
  | .mobilePortrait, a => { v with mobilePortrait := some a }

def get? (v : Responsive α) : Breakpoint → Option α
  | .desktop => some v.desktop
  | .tablet => v.tablet
  | .mobile => v.mobile
  | .mobilePortrait => v.mobilePortrait

/-- The value in force at a breakpoint: its own, or that of the nearest wider one. -/
def resolve (v : Responsive α) : Breakpoint → α
  | .desktop => v.desktop
  | .tablet => v.tablet.getD v.desktop
  | .mobile => v.mobile.getD (v.tablet.getD v.desktop)
  | .mobilePortrait => v.mobilePortrait.getD (v.mobile.getD (v.tablet.getD v.desktop))

end Responsive

end Folio.Style
