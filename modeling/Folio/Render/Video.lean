import Folio.Link.Video
import Folio.Markup.Element
import Folio.Props

set_option autoImplicit false

/-!
# Drawing videos

A video of a platform is an embedded frame, a file is played by the page itself, and where there is
no usable source a placeholder stands.
-/
namespace Folio.Render
open Markup

structure Playback where
  autoplay : Bool
  muted : Bool
  looping : Bool
  controls : Bool
deriving DecidableEq, Repr

namespace Playback

def ofProps (p : Props) : Playback where
  autoplay := (p.bool? "autoplay").getD false
  muted := (p.bool? "muted").getD false
  looping := (p.bool? "loop").getD false
  controls := (p.bool? "controls").getD true

/-- The query of an embedded player. Looping a single video may need it named as a playlist. -/
def parameters (b : Playback) (muteKey : Text) (playlist : List Text) : List Text :=
  (if b.autoplay then [("autoplay=1" : Text)] else []) ++
    (if b.muted then [muteKey ++ "=1"] else []) ++
    (if b.looping then ("loop=1" : Text) :: playlist.map ("playlist=" ++ ·) else []) ++
    (if b.controls then [] else [("controls=0" : Text)])

def withQuery (url : Text) (parameters : List Text) : Text :=
  if parameters.isEmpty then url else url ++ '?' :: Text.join "&" parameters

def youTubeUrl (b : Playback) (id : Text) : Text :=
  withQuery ("https://www.youtube-nocookie.com/embed/" ++ id) (b.parameters "mute" [id])

def vimeoUrl (b : Playback) (id : Text) : Text :=
  withQuery ("https://player.vimeo.com/video/" ++ id) (b.parameters "muted" [])

end Playback

def videoSource? (p : Props) : Option Link.VideoSource :=
  (p.firstString? ["url", "src", "videoUrl"]).bind Link.VideoSource.ofText?

def frame (src title : Text) : Html :=
  .element "iframe"
    [attr "src" src, attr "title" title,
     attr "allow" "accelerometer; autoplay; encrypted-media; gyroscope; picture-in-picture",
     bare "allowfullscreen", attr "loading" "lazy"] []

def embedded (id src title : Text) (children : Html) : Html :=
  .element "div" [attr "id" id, attr "class" "pc-video"] [frame src title, children]

def playback (b : Playback) : List PlainAttribute :=
  (if b.controls then [bare "controls"] else []) ++ (if b.autoplay then [bare "autoplay"] else []) ++
    (if b.muted then [bare "muted"] else []) ++ (if b.looping then [bare "loop"] else []) ++
    [bare "playsinline"]

def poster (p : Props) : List PlainAttribute :=
  (((p.string? "poster").bind (Link.safeResource? true)).map (attr "poster")).toList

def video (id : Text) (p : Props) (children : Html) : Html :=
  let b := Playback.ofProps p
  let title := (p.string? "title").getD "Video"
  match videoSource? p with
  | some (.file src) =>
    .element "video" ([attr "id" id, attr "class" "pc-video"] ++ playback b ++ poster p)
      [.void "source" [attr "src" src], children]
  | some (.youTube v) => embedded id (b.youTubeUrl v) title children
  | some (.vimeo v) => embedded id (b.vimeoUrl v) title children
  | none =>
    .element "div"
      [attr "id" id, attr "class" "pc-video pc-video-placeholder", attr "role" "img",
       attr "aria-label" title] [children]

end Folio.Render
