import Folio.Link.Url

set_option autoImplicit false

/-!
# Embeddable URLs

A frame may point at a fixed list of hosts, over `https` only. What the host of a URL is, a reader of
URLs says.
-/
namespace Folio.Link

def embedHosts : List Text :=
  ["youtube.com", "www.youtube.com", "youtube-nocookie.com", "www.youtube-nocookie.com",
   "player.vimeo.com", "www.loom.com", "fast.wistia.net"]

/-- A reader of absolute URLs: the host of one that is read and has the scheme `https`. -/
class HostReader where
  host? : Text → Option Text

def safeEmbed? [HostReader] (s : Text) : Option Text :=
  let url := clean s
  if (HostReader.host? url).any embedHosts.contains then some url else none

end Folio.Link
