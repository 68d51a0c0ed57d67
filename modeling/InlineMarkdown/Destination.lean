import InlineMarkdown.Text.Basic
import InlineMarkdown.Text.Whitespace

/-! Destinations: the address and title of a link or image.

Between the parentheses stands an address, and behind white space a title in
double or single quotes. `splitDestination?` reads that form, `linkDestination`
writes it. -/
namespace InlineMarkdown

/-- The title that a text is when it is nothing but white space and one quoted
part. -/
def quotedTitle? (text : List Char) : Option (List Char) := do
  if !text.head?.any isSpace then none
  else
    match text.dropWhile isSpace with
    | [] => none
    | quote :: rest =>
      if quote = '"' || quote = '\'' then
        let title := rest.takeWhile (· != quote)
        if rest.drop title.length = [quote] then some title else none
      else none

/-- An address without white space in it, free of its angle brackets. -/
def plainUrl? (url : List Char) : Option (List Char) :=
  if url.any isSpace then none else some ((between? '<' '>' url).getD url)

/-- The address and the title of a destination; none if the address has white
space in it. -/
def splitDestination? (raw : List Char) : Option (List Char × List Char) :=
  let raw := trim raw
  let url := raw.takeWhile (!isSpace ·)
  match quotedTitle? (raw.drop url.length) with
  | some title => (plainUrl? url).map (·, title)
  | none => (plainUrl? raw).map (·, [])

/-- A destination as it is written between parentheses: the address, in angle
brackets if it has white space, and behind a space the title, if there is one, in
the quotes that it does not contain. -/
def linkDestination (url title : List Char) : List Char :=
  let address := if url.any isSpace then '<' :: url ++ ['>'] else url
  if title.isEmpty then address
  else if title.contains '"' then address ++ [' ', '\''] ++ title ++ ['\'']
  else address ++ [' ', '"'] ++ title ++ ['"']

end InlineMarkdown
