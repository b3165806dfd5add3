/-
  Pages of the manual.
-/
import Parlance.Manual.Entry
import Parlance.Manual.Layout
import Parlance.Manual.Script
import Parlance.Native.Builtins
import Parlance.Tool.Path

namespace Parlance.Manual

structure NavItem where
  label : String
  link : String
  deriving Repr, DecidableEq, Inhabited

structure NavGroup where
  title : String
  items : List NavItem
  deriving Repr, DecidableEq, Inhabited

structure SearchItem where
  label : String
  parent : String := ""
  kind : String
  link : String
  text : String
  deriving Repr, DecidableEq, Inhabited

/-- A manual, with its navigation. -/
structure Site where
  title : String
  date : String
  nav : List NavGroup
  index : List SearchItem
  deriving Repr, DecidableEq, Inhabited

structure Card where
  badge : String
  title : String
  text : String
  link : String
  deriving Repr, DecidableEq, Inhabited

/-- A page of entries. -/
structure Chapter where
  name : String
  description : String
  entries : List Entry
  deriving Repr, DecidableEq, Inhabited

inductive Body where
  | home (cards : List Card)
  | chapter (c : Chapter)
  deriving Repr, DecidableEq, Inhabited

/-- A page of a manual. -/
structure Page where
  title : String
  file : String
  body : Body
  deriving Repr, DecidableEq, Inhabited

/-! ## The search index -/

def SearchItem.json (i : SearchItem) : String :=
  "\x7b\"l\":" ++ jsonString i.label ++ ",\"p\":" ++ jsonString i.parent ++ ",\"t\":" ++
    jsonString i.kind ++ ",\"u\":" ++ jsonString i.link ++ ",\"d\":" ++ jsonString i.text ++ "\x7d"

def indexJson (items : List SearchItem) : String :=
  if items.isEmpty then "null" else "[" ++ Text.join "," (items.map SearchItem.json) ++ "]"

/-! ## Parts of a page -/

def activeMark (active : Bool) : String := if active then "active" else ""

def NavItem.render (i : NavItem) (current : String) : String :=
  "\n                    <a href=\"" ++ escapedText i.link ++ "\" class=\"nav-item " ++
    activeMark (i.label == current) ++ "\">" ++ escapedText i.label ++ "</a>\n                "

def NavGroup.render (g : NavGroup) (current : String) : String :=
  "\n                <div class=\"nav-header\">" ++ escapedText g.title ++
    "</div>\n                " ++ String.join (g.items.map (·.render current)) ++ "\n            "

def Card.render (c : Card) : String :=
  "
                    <a href=\"" ++ escapedText c.link ++ "\" class=\"home-card\">
                        <span class=\"hc-badge\">" ++ escapedText c.badge ++ "</span>
                        <span class=\"hc-title\">" ++ escapedText c.title ++ "</span>
                        <span class=\"hc-desc\">" ++ escapedText c.text ++ "</span>
                    </a>
                    "

def Entry.row (e : Entry) : String :=
  "
                        <tr>
                            <td><a href=\"#" ++ percentEncoded e.id ++ "\" class=\"idx-link\">" ++
    escapedText e.name ++ "</a></td>
                            <td>" ++ escapedText e.summary ++ "</td>
                        </tr>
                        "

def parameterRow (parameter : String × String) : String :=
  "<tr><td class=\"p-name\">" ++ escapedText parameter.1 ++ "</td><td class=\"p-desc\">" ++
    escapedText parameter.2 ++ "</td></tr>"

def Entry.card (e : Entry) : String :=
  "
                <div id=\"" ++ escapedText e.id ++ "\" class=\"doc-card\">
                    <div class=\"card-head\"><div class=\"sig\">" ++ e.signature ++ "</div></div>
                    <div class=\"card-body\">
                        <div class=\"desc-text\">" ++ escapedText e.description ++ "</div>
                        " ++ (if e.parameters.isEmpty then "" else "
                            <span class=\"lbl\">Paramètres</span>
                            <table class=\"param-tbl\">
                                " ++ String.join (e.parameters.map parameterRow) ++ "
                            </table>
                        ") ++ "
                        " ++ (if e.returns.isEmpty then "" else "
                            <span class=\"lbl\">Retour</span>
                            <div class=\"ret-type\">" ++ escapedText e.returns ++ "</div>
                        ") ++ "
                    </div>
                </div>
                "

def Chapter.render (c : Chapter) : String :=
  "
                <div class=\"page-header\">
                    <h1 class=\"page-title\">" ++ escapedText c.name ++ "</h1>
                    " ++ (if c.description.isEmpty then "" else
      "<p class=\"page-desc\">" ++ escapedText c.description ++ "</p>") ++ "
                </div>

                <table class=\"idx-tbl\">
                    <thead><tr><th>Nom</th><th>Résumé</th></tr></thead>
                    <tbody>
                        " ++ String.join (c.entries.map Entry.row) ++ "
                    </tbody>
                </table>

                " ++ String.join (c.entries.map Entry.card) ++ "
            "

def Site.home (site : Site) (cards : List Card) : String :=
  "
                <div class=\"page-header\">
                    <h1 class=\"page-title\">" ++ escapedText site.title ++ "</h1>
                    <p class=\"page-desc\">Générée le " ++ escapedText site.date ++ "</p>
                </div>
                <div class=\"home-grid\">
                    " ++ String.join (cards.map Card.render) ++ "
                </div>
            "

def Body.isHome : Body → Bool
  | home _ => true
  | chapter _ => false

/-! ## Whole pages -/

def Site.render (site : Site) (page : Page) : String :=
  "<!DOCTYPE html>
<html lang=\"fr\">
<head>
    <meta charset=\"UTF-8\">
    <meta name=\"viewport\" content=\"width=device-width, initial-scale=1.0\">
    <title>" ++ (if page.title.isEmpty then "" else escapedText page.title ++ " - ") ++
    escapedText site.title ++ "</title>
    <style>
" ++ styleSheet ++ "    </style>
</head>
<body>
    <aside>
        <div class=\"brand\"><h1><a href=\"index.html\">" ++ escapedText site.title ++ "</a></h1></div>
        <div class=\"search-container\">
            <input type=\"text\" id=\"search\" placeholder=\"Rechercher (ex. racine)...\">
            <div id=\"searchResults\" class=\"search-results\"></div>
        </div>
        <nav class=\"nav-scroll\">
            <a href=\"index.html\" class=\"nav-item " ++ activeMark page.body.isHome ++ "\">Accueil</a>
            " ++ String.join (site.nav.map (·.render page.title)) ++ "
        </nav>
    </aside>

    <main>
        <div class=\"container\">
            " ++ (match page.body with
      | .home cards => site.home cards
      | .chapter c => c.render) ++ "
        </div>
    </main>

    <script>
        const searchIndex = " ++ indexJson site.index ++ ";
" ++ searchScript ++ "    </script>
</body>
</html>"

/-! ## Manuals -/

def Entry.searchItem (e : Entry) (file kind parent : String) : SearchItem :=
  { label := e.name, parent, kind, link := file ++ "#" ++ e.id, text := e.summary }

def nativeNames : List String := (Native.builtins.map (·.name)).mergeSort fun a b => !(b < a)

def nativesChapter : Chapter where
  name := "Fonctions natives"
  description := "Fonctions disponibles dans tout programme."
  entries := nativeNames.map fun name => Entry.ofDoc name (Native.builtinDoc? name)

def keywordsChapter : Chapter where
  name := "Mots-clés"
  description := "Mots réservés du langage."
  entries := Token.usableKeywords.map Entry.ofKeyword

/-- A manual as files. -/
structure Book where
  site : Site
  pages : List Page
  deriving Repr, DecidableEq, Inhabited

def Book.files (b : Book) : List (String × String) :=
  b.pages.map fun page => (page.file, b.site.render page)

/-- The manual of the language, three pages. -/
def library (date : String) : Book where
  site := {
    title := "Bibliothèque Zia"
    date
    nav := [⟨"Référence", [⟨nativesChapter.name, "globals.html"⟩,
      ⟨keywordsChapter.name, "keywords.html"⟩]⟩]
    index := nativesChapter.entries.map (·.searchItem "globals.html" "fn" "") ++
      keywordsChapter.entries.map (·.searchItem "keywords.html" "mot" "") }
  pages := [
    ⟨"Accueil", "index.html", .home [
      ⟨"Natives", nativesChapter.name, nativesChapter.description, "globals.html"⟩,
      ⟨"Langage", keywordsChapter.name, keywordsChapter.description, "keywords.html"⟩]⟩,
    ⟨nativesChapter.name, "globals.html", .chapter nativesChapter⟩,
    ⟨keywordsChapter.name, "keywords.html", .chapter keywordsChapter⟩]

/-- The manual of a script, one page. -/
def script (date path source : String) : Book :=
  let name := Path.base path
  let entries := (scriptFunctions name source).map fun (f, doc) => Entry.ofDoc f (some doc)
  { site := {
      title := "Documentation du script"
      date
      nav := [⟨"Scripts", [⟨name, "index.html"⟩]⟩]
      index := entries.map (·.searchItem "index.html" "fn" name) }
    pages := [⟨name, "index.html", .chapter {
      name, description := "Fonctions déclarées au niveau supérieur.", entries }⟩] }

end Parlance.Manual
