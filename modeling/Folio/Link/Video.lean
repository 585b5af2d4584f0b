import Folio.Link.Url
import Folio.Text.Digit
import Folio.Text.Fold

set_option autoImplicit false

/-!
# Sources of videos

Two platforms are known by the URLs of their pages, wherever in a text such a URL stands; the first
place counts. Their words are met in any letter case. Any other source is a file to be played, if its
URL is safe.
-/
namespace Folio.Link

inductive VideoSource where
  | youTube (id : Text)
  | vimeo (id : Text)
  | file (url : Text)
deriving DecidableEq, Repr

namespace VideoSource

def after? (word s : Text) : Option Text := Text.dropStartUnder? Text.foldChar word s

def first? (answer? : Text → Option Text) : Text → Option Text
  | [] => none
  | c :: s => (answer? (c :: s)).or (first? answer? s)

def isIdChar (c : Char) : Bool :=
  let d := Text.foldChar c
  d.isAlphanum || d = '_' || d = '-'

def videoId? (s : Text) : Option Text :=
  let id := s.takeWhile isIdChar
  if 6 ≤ id.length then some id else none

def parameterId? (s : Text) : Option Text := (after? "v=" s).bind videoId?

/-- The id of the last such parameter after an ampersand and before the fragment. -/
def laterParameterId? : Text → Option Text
  | [] => none
  | c :: s =>
    if c = '#' then none
    else (laterParameterId? s).or (if c = '&' then parameterId? s else none)

def watchId? (s : Text) : Option Text := (laterParameterId? s).or (parameterId? s)

def pathId? (s : Text) : Option Text :=
  ((after? "watch?" s).bind watchId?).or
    ((["embed/", "shorts/", "live/", "v/"] : List Text).findSome? fun p => (after? p s).bind videoId?)

def youTubeId? (s : Text) : Option Text :=
  let site := ((after? "youtube-nocookie.com/" s).or (after? "youtube.com/" s)).bind pathId?
  site.or ((after? "youtu.be/" s).bind videoId?)

def digits? (s : Text) : Option Text :=
  let id := s.takeWhile Text.isDecimalDigit
  if id.isEmpty then none else some id

def afterSegment? (s : Text) : Option Text :=
  match s.takeWhile (· ≠ '/'), s.dropWhile (· ≠ '/') with
  | _ :: _, '/' :: r => some r
  | _, _ => none

/-- The text after one of the paths that may stand before the id. -/
def afterPath? (s : Text) : Option Text :=
  (after? "video/" s).or
    (((after? "channels/" s).bind afterSegment?).or
      (((after? "groups/" s).bind afterSegment?).bind (after? "videos/")))

def vimeoId? (s : Text) : Option Text :=
  (after? "vimeo.com/" s).bind fun r => ((afterPath? r).bind digits?).or (digits? r)

def ofText? (s : Text) : Option VideoSource :=
  let url := Text.trim s
  match first? youTubeId? url, first? vimeoId? url with
  | some id, _ => some (youTube id)
  | none, some id => some (vimeo id)
  | none, none => (safeResource? false url).map file

end VideoSource

end Folio.Link
