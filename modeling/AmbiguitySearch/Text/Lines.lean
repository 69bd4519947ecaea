/-!
# Lines of bytes

Files are read as bytes and cut into lines before they are decoded, so that a
line with malformed text spoils nothing but itself. A line ends at a newline;
the carriage return of a CRLF end belongs to the end, any other carriage return
to the line. The last line may lack its end, and a file that ends with a line
end has no empty line after it.
-/

namespace AmbiguitySearch.Text

/-- The byte that ends a line. -/
def newline : UInt8 := 10

/-- The byte that may stand before it. -/
def carriageReturn : UInt8 := 13

/-- Drops a carriage return at the end of a line. -/
def withoutCarriageReturn (line : List UInt8) : List UInt8 :=
  if line.getLast? = some carriageReturn then line.dropLast else line

/-- The lines of a file, without their ends. -/
def lines (bytes : List UInt8) : List (List UInt8) :=
  if bytes.isEmpty then []
  else
    match _rest : bytes.dropWhile (· != newline) with
    | [] => [bytes]
    | _ :: rest => withoutCarriageReturn (bytes.takeWhile (· != newline)) :: lines rest
termination_by bytes.length
decreasing_by
  have shorter := (List.dropWhile_sublist (l := bytes) (· != newline)).length_le
  rw [_rest] at shorter
  exact shorter

/-- The text that bytes encode, if they are valid UTF-8. -/
def decode? (bytes : List UInt8) : Option String :=
  String.fromUTF8? ⟨bytes.toArray⟩

end AmbiguitySearch.Text
