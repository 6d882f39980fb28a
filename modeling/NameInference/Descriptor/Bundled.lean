import NameInference.Text

/-!
# Bundled descriptors

Descriptors of the builtin names and of the typing names, which are there without any file.
-/

namespace NameInference.Bundled

/-- The text of the given lines, each ended by a line feed. -/
def ofLines (lines : List String) : Text := lines.flatMap fun line => Text.ofString (line ++ "\n")

/-- The descriptor of the builtin names. -/
def builtins : Text :=
  ofLines [
    "from typing import TypeVar, Generic, Iterator, Iterable, Optional, List, Any",
    "",
    "_T = TypeVar('_T')",
    "_KT = TypeVar('_KT')",
    "_VT = TypeVar('_VT')",
    "",
    "class object:",
    "    __doc__: Optional[str]",
    "    __module__: str",
    "    def __init__(self) -> None: ...",
    "    def __eq__(self, o: object) -> bool: ...",
    "    def __ne__(self, o: object) -> bool: ...",
    "    def __str__(self) -> str: ...",
    "    def __repr__(self) -> str: ...",
    "    def __hash__(self) -> int: ...",
    "",
    "class type:",
    "    __name__: str",
    "    __qualname__: str",
    "    def __init__(self, o: object) -> None: ...",
    "    def mro(self) -> List[type]: ...",
    "",
    "class function:",
    "    __name__: str",
    "    __qualname__: str",
    "",
    "class property:",
    "    def __init__(self, fget: Any = ..., fset: Any = ..., fdel: Any = ...) -> None: ...",
    "    def getter(self, fget: Any) -> property: ...",
    "    def setter(self, fset: Any) -> property: ...",
    "    def deleter(self, fdel: Any) -> property: ...",
    "",
    "class staticmethod:",
    "    def __init__(self, f: Any) -> None: ...",
    "",
    "class super:",
    "    def __init__(self, t: Any = ..., obj: Any = ...) -> None: ...",
    "",
    "class classmethod:",
    "    def __init__(self, f: Any) -> None: ...",
    "",
    "class int:",
    "    def __init__(self, x: Any = ...) -> None: ...",
    "    def bit_length(self) -> int: ...",
    "    def __add__(self, x: int) -> int: ...",
    "    def __sub__(self, x: int) -> int: ...",
    "    def __mul__(self, x: int) -> int: ...",
    "    def __neg__(self) -> int: ...",
    "    def __bool__(self) -> bool: ...",
    "",
    "class float:",
    "    def __init__(self, x: Any = ...) -> None: ...",
    "    def is_integer(self) -> bool: ...",
    "    def __add__(self, x: float) -> float: ...",
    "",
    "class complex:",
    "    real: float",
    "    imag: float",
    "    def conjugate(self) -> complex: ...",
    "",
    "class bool(int):",
    "    def __init__(self, o: object = ...) -> None: ...",
    "",
    "class str:",
    "    def __init__(self, o: object = ...) -> None: ...",
    "    def upper(self) -> str: ...",
    "    def lower(self) -> str: ...",
    "    def strip(self, chars: Optional[str] = ...) -> str: ...",
    "    def split(self, sep: Optional[str] = ...) -> List[str]: ...",
    "    def join(self, iterable: Iterable[str]) -> str: ...",
    "    def startswith(self, prefix: str) -> bool: ...",
    "    def encode(self, encoding: str = ...) -> bytes: ...",
    "    def __add__(self, s: str) -> str: ...",
    "    def __getitem__(self, i: int) -> str: ...",
    "    def __iter__(self) -> Iterator[str]: ...",
    "    def __len__(self) -> int: ...",
    "",
    "class bytes:",
    "    def decode(self, encoding: str = ...) -> str: ...",
    "    def __getitem__(self, i: int) -> int: ...",
    "    def __iter__(self) -> Iterator[int]: ...",
    "    def __len__(self) -> int: ...",
    "",
    "class NoneType:",
    "    def __bool__(self) -> bool: ...",
    "",
    "class ellipsis: ...",
    "",
    "class list(Generic[_T]):",
    "    def __init__(self, iterable: Iterable[_T] = ...) -> None: ...",
    "    def append(self, object: _T) -> None: ...",
    "    def extend(self, iterable: Iterable[_T]) -> None: ...",
    "    def pop(self, index: int = ...) -> _T: ...",
    "    def index(self, object: _T) -> int: ...",
    "    def copy(self) -> List[_T]: ...",
    "    def __getitem__(self, i: int) -> _T: ...",
    "    def __iter__(self) -> Iterator[_T]: ...",
    "    def __len__(self) -> int: ...",
    "",
    "class tuple(Generic[_T]):",
    "    def index(self, object: _T) -> int: ...",
    "    def count(self, object: _T) -> int: ...",
    "    def __getitem__(self, i: int) -> _T: ...",
    "    def __iter__(self) -> Iterator[_T]: ...",
    "    def __len__(self) -> int: ...",
    "",
    "class dict(Generic[_KT, _VT]):",
    "    def __init__(self, **kwargs: _VT) -> None: ...",
    "    def keys(self) -> List[_KT]: ...",
    "    def values(self) -> List[_VT]: ...",
    "    def get(self, k: _KT) -> Optional[_VT]: ...",
    "    def pop(self, k: _KT) -> _VT: ...",
    "    def setdefault(self, k: _KT, default: _VT) -> _VT: ...",
    "    def __getitem__(self, k: _KT) -> _VT: ...",
    "    def __iter__(self) -> Iterator[_KT]: ...",
    "    def __len__(self) -> int: ...",
    "",
    "class set(Generic[_T]):",
    "    def __init__(self, iterable: Iterable[_T] = ...) -> None: ...",
    "    def add(self, element: _T) -> None: ...",
    "    def pop(self) -> _T: ...",
    "    def __iter__(self) -> Iterator[_T]: ...",
    "    def __len__(self) -> int: ...",
    "",
    "class frozenset(Generic[_T]):",
    "    def __iter__(self) -> Iterator[_T]: ...",
    "    def __len__(self) -> int: ...",
    "",
    "class generator(Generic[_T]):",
    "    def __iter__(self) -> Iterator[_T]: ...",
    "    def __next__(self) -> _T: ...",
    "",
    "class BaseException:",
    "    args: tuple",
    "    def __init__(self, *args: object) -> None: ...",
    "    def with_traceback(self, tb: Any) -> BaseException: ...",
    "",
    "class Exception(BaseException): ...",
    "class StopIteration(Exception): ...",
    "class ArithmeticError(Exception): ...",
    "class ZeroDivisionError(ArithmeticError): ...",
    "class AttributeError(Exception): ...",
    "class LookupError(Exception): ...",
    "class IndexError(LookupError): ...",
    "class KeyError(LookupError): ...",
    "class NameError(Exception): ...",
    "class OSError(Exception): ...",
    "class RuntimeError(Exception): ...",
    "class NotImplementedError(RuntimeError): ...",
    "class TypeError(Exception): ...",
    "class ValueError(Exception): ...",
    "",
    "def len(obj: Any) -> int: ...",
    "def print(*values: object, sep: Optional[str] = ..., end: Optional[str] = ...) -> None: ...",
    "def isinstance(obj: object, class_or_tuple: Any) -> bool: ...",
    "def issubclass(cls: type, class_or_tuple: Any) -> bool: ...",
    "def repr(obj: object) -> str: ...",
    "def hash(obj: object) -> int: ...",
    "def id(obj: object) -> int: ...",
    "def abs(x: _T) -> _T: ...",
    "def input(prompt: Any = ...) -> str: ...",
    "def open(file: str, mode: str = ...) -> Any: ...",
    "def getattr(o: object, name: str, default: Any = ...) -> Any: ..."]

/-- The descriptor of the typing names. -/
def typing : Text :=
  ofLines [
    "class TypeVar:",
    "    __name__: str",
    "    def __init__(self, name: str, *constraints: Any, bound: Any = ...) -> None: ...",
    "",
    "class _SpecialForm:",
    "    def __getitem__(self, parameters: Any) -> object: ...",
    "",
    "Any: _SpecialForm",
    "Union: _SpecialForm",
    "Optional: _SpecialForm",
    "Tuple: _SpecialForm",
    "Callable: _SpecialForm",
    "Type: _SpecialForm",
    "ClassVar: _SpecialForm",
    "Final: _SpecialForm",
    "Literal: _SpecialForm",
    "Annotated: _SpecialForm",
    "NoReturn: _SpecialForm",
    "",
    "TYPE_CHECKING: bool",
    "",
    "_T = TypeVar('_T')",
    "_T_co = TypeVar('_T_co')",
    "_KT = TypeVar('_KT')",
    "_VT = TypeVar('_VT')",
    "",
    "class Generic: ...",
    "class Protocol: ...",
    "",
    "class Iterable(Generic[_T_co]):",
    "    def __iter__(self) -> Iterator[_T_co]: ...",
    "",
    "class Iterator(Iterable[_T_co]):",
    "    def __next__(self) -> _T_co: ...",
    "    def __iter__(self) -> Iterator[_T_co]: ...",
    "",
    "class Sized(Protocol):",
    "    def __len__(self) -> int: ...",
    "",
    "class Mapping(Generic[_KT, _VT]):",
    "    def __getitem__(self, k: _KT) -> _VT: ...",
    "    def get(self, k: _KT) -> Optional[_VT]: ...",
    "",
    "List = list",
    "Dict = dict",
    "Set = set",
    "FrozenSet = frozenset",
    "DefaultDict = dict",
    "",
    "def overload(func: _T) -> _T: ...",
    "def final(f: _T) -> _T: ...",
    "def cast(typ: Any, val: Any) -> Any: ...",
    "def NewType(name: str, tp: Any) -> Any: ..."]

/-- The text of the bundled descriptor of a module. -/
def source? (name : Text) : Option Text :=
  if name == "builtins" then some builtins
  else if name == "typing" then some typing
  else none

end NameInference.Bundled
