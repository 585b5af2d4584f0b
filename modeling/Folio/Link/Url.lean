import Folio.Text.Blank

set_option autoImplicit false

/-!
# Safe URLs

Browsers drop control characters inside a URL and white space around it, so `clean` removes them
before anything is decided. The scheme of a URL is what stands before its first colon, white space
aside, unless a `/`, `?` or `#` comes earlier; a URL without one is relative.
-/
namespace Folio.Link

def clean (s : Text) : Text := Text.trim ((Text.trim s).filter fun c => !Text.isControl c)

def isSchemeChar (c : Char) : Bool := c ≠ ':' && c ≠ '/' && c ≠ '?' && c ≠ '#'

def scheme? (s : Text) : Option Text :=
  let compact := s.filter fun c => !Text.isBlank c
  if (compact.dropWhile isSchemeChar).head? = some ':' then
    some (Text.lower (compact.takeWhile isSchemeChar))
  else none

def linkSchemes : List Text := ["http", "https", "mailto", "tel"]

def resourceSchemes : List Text := ["http", "https"]

/-- Raster images; a vector image can carry script. -/
def dataImageTypes : List Text :=
  ["data:image/png", "data:image/jpeg", "data:image/jpg", "data:image/gif", "data:image/webp",
   "data:image/avif", "data:image/bmp"]

def isDataImage (s : Text) : Bool :=
  dataImageTypes.any fun type =>
    match Text.dropStart? type (Text.lower s) with
    | some (c :: _) => c = ';' || c = ','
    | _ => false

/-- The cleaned URL, if it is not empty and its scheme, where it has one, is allowed. -/
def guarded (allowed : Text → Text → Bool) (s : Text) : Option Text :=
  let url := clean s
  if url.isEmpty then none
  else
    match scheme? url with
    | none => some url
    | some scheme => if allowed scheme url then some url else none

def safeLink? (s : Text) : Option Text := guarded (fun scheme _ => linkSchemes.contains scheme) s

/-- Something to load: relative, `http`, `https`, or where data images are allowed one of those. -/
def safeResource? (dataImages : Bool) (s : Text) : Option Text :=
  guarded
    (fun scheme url =>
      resourceSchemes.contains scheme || (scheme = "data" && dataImages && isDataImage url)) s

end Folio.Link
