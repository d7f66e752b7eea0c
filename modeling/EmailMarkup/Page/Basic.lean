import EmailMarkup.Direction
import EmailMarkup.Head.Basic
import EmailMarkup.Page.Stylesheets
import EmailMarkup.Render.Style
import EmailMarkup.Text.Escape
/-!
# The page around a mail

A complete HTML document: the head of the mail, then its rendered body.
-/
namespace EmailMarkup.Page

open EmailMarkup.Head
open EmailMarkup.Render
open EmailMarkup.Text

/-- What all programs but Outlook read. -/
def exceptOutlook (content : String) : String :=
  line 2 "<!--[if !mso]><!-->" ++ content ++ line 2 "<!--<![endif]-->"

def opening (language : String) (direction : Direction) : String :=
  "<!doctype html>\n" ++
    startTag "html" [("lang", escapeAttribute language), ("dir", direction.text),
      ("xmlns", "http://www.w3.org/1999/xhtml"), ("xmlns:v", "urn:schemas-microsoft-com:vml"),
      ("xmlns:o", "urn:schemas-microsoft-com:office:office")] ++ "\n\n"

def properties : String :=
  exceptOutlook (line 2 "<meta http-equiv=\"X-UA-Compatible\" content=\"IE=edge\">") ++
    line 2 "<meta http-equiv=\"Content-Type\" content=\"text/html; charset=UTF-8\">" ++
    line 2 "<meta name=\"viewport\" content=\"width=device-width, initial-scale=1\">"

def outlookSettings : String :=
  line 2 "<!--[if mso]>" ++ line 4 "<noscript>" ++ line 4 "<xml>" ++
    line 4 "<o:OfficeDocumentSettings>" ++ line 6 "<o:AllowPNG/>" ++
    line 6 "<o:PixelsPerInch>96</o:PixelsPerInch>" ++ line 4 "</o:OfficeDocumentSettings>" ++
    line 4 "</xml>" ++ line 4 "</noscript>" ++ line 4 "<![endif]-->" ++
    line 2 "<!--[if lte mso 11]>" ++ line 4 "<style type=\"text/css\">" ++
    line 6 ".mj-outlook-group-fix \x7b width:100% !important; \x7d" ++ line 4 "</style>" ++
    line 4 "<![endif]-->"

def fontLinks (fonts : List Font) : String :=
  if fonts.isEmpty then ""
  else exceptOutlook (
    String.join (fonts.map fun f => line 2 (startTag "link" [("href", escapeAttribute f.address),
      ("rel", "stylesheet"), ("type", "text/css")])) ++
    styleElement (String.join (fonts.map fun f =>
      line 4 ("@import url(\"" ++ escapeAddress f.address ++ "\");")) ++ "\n"))

def headText (h : Head) : String :=
  "<head>\n" ++ line 2 s!"<title>{escapeAttribute h.metadata.title}</title>" ++ properties ++
    resetStyles ++ outlookSettings ++ fontLinks h.styles.fonts ++
    columnStyles h.metadata.breakpoint h.styles.mediaQueries ++ componentStyles h.styles ++
    authorStyles h.styles ++
    String.join (h.metadata.comments.map fun c => line 2 ("<!-- " ++ replace c "--" "" ++ " -->")) ++
    String.join (h.metadata.raw.map fun markup => markup ++ "\n") ++
    "</head>\n\n"

/-- The style of the preview, which is only shown in lists of mails. -/
def previewStyle : String :=
  styleText [("display", "none"), ("font-size", "1px"), ("color", "#ffffff"), ("line-height", "1px"),
    ("max-height", "0px"), ("max-width", "0px"), ("opacity", "0"), ("overflow", "hidden")]

/-- The preview, unless there is none. -/
def previewText (preview : String) : String :=
  if preview.isEmpty then ""
  else line 2 (startTag "div" [("style", previewStyle)] ++ escapeAttribute preview ++ "</div>")

def document (h : Head) (language : String) (direction : Direction) (body : String) : String :=
  String.join (h.metadata.fileStart.map fun content => content ++ "\n") ++
    opening language direction ++ headText h ++
    startTag "body" [("style", styleText [("word-spacing", "normal"),
      ("background-color", escapeAttribute h.metadata.background)])] ++ "\n" ++
    previewText h.metadata.preview ++ body ++ "</body>\n\n</html>\n"

end EmailMarkup.Page
