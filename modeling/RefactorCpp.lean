import RefactorCpp.NameStyle.Adjacent
import RefactorCpp.NameStyle.Boundaries
import RefactorCpp.NameStyle.CamelCase
import RefactorCpp.NameStyle.GuessedStyle
import RefactorCpp.NameStyle.Registry
import RefactorCpp.NameStyle.SplitLaws
import RefactorCpp.NameStyle.StyleLanguages
import RefactorCpp.Parsers
import RefactorCpp.Refactoring.Clang
import RefactorCpp.Refactoring.Console
import RefactorCpp.Refactoring.Files
import RefactorCpp.Refactoring.Hooks
import RefactorCpp.Refactoring.Session
import RefactorCpp.Strings
