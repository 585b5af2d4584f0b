import Folio.Link.Embed
import Folio.Link.HostForm
import Folio.Markup.Reference

set_option autoImplicit false

/-!
# The host of a secure URL

The host of an absolute `https` URL stands between the slashes after the scheme, any number of them in
either direction, and the next slash, `?` or `#`; a user name before `@` and a port after `:` are not part
of it. The port is empty or a number below 65536. The host is percent-decoded and compared in its mapped
form. This is the reader of URLs that the program runs with.
-/
namespace Folio.Link

def isSlash (c : Char) : Bool := c = '/' || c = '\\'

def endsAuthority (c : Char) : Bool := isSlash c || c = '?' || c = '#'

def afterUser (s : Text) : Text := (s.reverse.takeWhile (· ≠ '@')).reverse

def percentBytes : Text → List UInt8
  | '%' :: a :: b :: s =>
    if Markup.isHexDigit a && Markup.isHexDigit b then
      UInt8.ofNat (Markup.codeOf 16 [a, b]) :: percentBytes s
    else String.utf8EncodeChar '%' ++ percentBytes (a :: b :: s)
  | c :: s => String.utf8EncodeChar c ++ percentBytes s
  | [] => []

def percentDecode? (s : Text) : Option Text :=
  (String.fromUTF8? ⟨(percentBytes s).toArray⟩).map String.toList

def isPort (s : Text) : Bool := s.all Char.isDigit && Markup.codeOf 10 s < 65536

/-- The host of an absolute `https` URL in its mapped form. -/
def secureHost? (url : Text) : Option Text := do
  let s ← Text.dropStartUnder? Char.toLower "https:" url
  let place := afterUser ((s.dropWhile isSlash).takeWhile fun c => !endsAuthority c)
  let port := (place.dropWhile (· ≠ ':')).drop 1
  if isPort port then
    let host ← percentDecode? (place.takeWhile (· ≠ ':'))
    some (host.flatMap hostForm)
  else none

instance : HostReader := ⟨secureHost?⟩

end Folio.Link
