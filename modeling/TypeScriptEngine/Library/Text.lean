/-!
# The texts of the standard library

The declarations that every program sees: those of the language level before 2015, and those that
came with it.  Each is a list of lines.
-/

namespace TypeScriptEngine.Library

/-- The lines of the library of the fifth edition. -/
def es5Lines : List String := [
  "/// Core declarations of ECMAScript 5.",
  "",
  "declare var NaN: number;",
  "declare var Infinity: number;",
  "",
  "declare function eval(x: string): any;",
  "declare function parseInt(string: string, radix?: number): number;",
  "declare function parseFloat(string: string): number;",
  "declare function isNaN(number: number): boolean;",
  "declare function isFinite(number: number): boolean;",
  "declare function decodeURI(encodedURI: string): string;",
  "declare function decodeURIComponent(encodedURIComponent: string): string;",
  "declare function encodeURI(uri: string): string;",
  "declare function encodeURIComponent(uriComponent: string | number | boolean): string;",
  "",
  "interface PropertyDescriptor \x7b",
  "    configurable?: boolean;",
  "    enumerable?: boolean;",
  "    value?: any;",
  "    writable?: boolean;",
  "    get?(): any;",
  "    set?(v: any): void;",
  "\x7d",
  "",
  "interface Object \x7b",
  "    constructor: Function;",
  "    toString(): string;",
  "    valueOf(): Object;",
  "    hasOwnProperty(v: PropertyKey): boolean;",
  "\x7d",
  "",
  "interface ObjectConstructor \x7b",
  "    new (value?: any): Object;",
  "    (value?: any): any;",
  "    readonly prototype: Object;",
  "    keys(o: object): string[];",
  "    defineProperty<T>(o: T, p: PropertyKey, attributes: PropertyDescriptor): T;",
  "    freeze<T>(o: T): Readonly<T>;",
  "    create(o: object | null): any;",
  "\x7d",
  "",
  "declare var Object: ObjectConstructor;",
  "",
  "interface Function \x7b",
  "    apply(this: Function, thisArg: any, argArray?: any): any;",
  "    call(this: Function, thisArg: any, ...argArray: any[]): any;",
  "    bind(this: Function, thisArg: any, ...argArray: any[]): any;",
  "    readonly length: number;",
  "\x7d",
  "",
  "declare var Function: \x7b",
  "    new (...args: string[]): Function;",
  "    readonly prototype: Function;",
  "\x7d;",
  "",
  "interface String \x7b",
  "    readonly length: number;",
  "    charAt(pos: number): string;",
  "    indexOf(searchString: string, position?: number): number;",
  "    slice(start?: number, end?: number): string;",
  "    split(separator: string, limit?: number): string[];",
  "    toLowerCase(): string;",
  "    toUpperCase(): string;",
  "    trim(): string;",
  "\x7d",
  "",
  "declare var String: \x7b",
  "    new (value?: any): String;",
  "    (value?: any): string;",
  "    fromCharCode(...codes: number[]): string;",
  "\x7d;",
  "",
  "interface Boolean \x7b",
  "    valueOf(): boolean;",
  "\x7d",
  "",
  "declare var Boolean: \x7b",
  "    new (value?: any): Boolean;",
  "    <T>(value?: T): boolean;",
  "\x7d;",
  "",
  "interface Number \x7b",
  "    toFixed(fractionDigits?: number): string;",
  "    toString(radix?: number): string;",
  "\x7d",
  "",
  "declare var Number: \x7b",
  "    new (value?: any): Number;",
  "    (value?: any): number;",
  "    readonly MAX_VALUE: number;",
  "    readonly MIN_VALUE: number;",
  "\x7d;",
  "",
  "interface Math \x7b",
  "    readonly PI: number;",
  "    abs(x: number): number;",
  "    ceil(x: number): number;",
  "    floor(x: number): number;",
  "    max(...values: number[]): number;",
  "    min(...values: number[]): number;",
  "    random(): number;",
  "    round(x: number): number;",
  "\x7d",
  "",
  "declare var Math: Math;",
  "",
  "interface Date \x7b",
  "    getTime(): number;",
  "    toISOString(): string;",
  "\x7d",
  "",
  "declare var Date: \x7b",
  "    new (value?: number | string): Date;",
  "    now(): number;",
  "\x7d;",
  "",
  "interface RegExp \x7b",
  "    exec(string: string): RegExpExecArray | null;",
  "    test(string: string): boolean;",
  "    readonly source: string;",
  "\x7d",
  "",
  "interface RegExpExecArray extends Array<string> \x7b",
  "    index: number;",
  "    input: string;",
  "\x7d",
  "",
  "declare var RegExp: \x7b",
  "    new (pattern: RegExp | string, flags?: string): RegExp;",
  "\x7d;",
  "",
  "interface Error \x7b",
  "    name: string;",
  "    message: string;",
  "    stack?: string;",
  "\x7d",
  "",
  "interface ErrorConstructor \x7b",
  "    new (message?: string): Error;",
  "    (message?: string): Error;",
  "    readonly prototype: Error;",
  "\x7d",
  "",
  "declare var Error: ErrorConstructor;",
  "declare var TypeError: ErrorConstructor;",
  "declare var RangeError: ErrorConstructor;",
  "declare var SyntaxError: ErrorConstructor;",
  "",
  "interface JSON \x7b",
  "    parse(text: string, reviver?: (this: any, key: string, value: any) => any): any;",
  "    stringify(value: any, replacer?: (this: any, key: string, value: any) => any, space?: string | number): string;",
  "\x7d",
  "",
  "declare var JSON: JSON;",
  "",
  "interface Array<T> \x7b",
  "    length: number;",
  "    push(...items: T[]): number;",
  "    pop(): T | undefined;",
  "    concat(...items: (T | T[])[]): T[];",
  "    join(separator?: string): string;",
  "    slice(start?: number, end?: number): T[];",
  "    indexOf(searchElement: T, fromIndex?: number): number;",
  "    forEach(callbackfn: (value: T, index: number, array: T[]) => void, thisArg?: any): void;",
  "    map<U>(callbackfn: (value: T, index: number, array: T[]) => U, thisArg?: any): U[];",
  "    filter(predicate: (value: T, index: number, array: T[]) => unknown, thisArg?: any): T[];",
  "    reduce<U>(callbackfn: (previous: U, current: T, index: number, array: T[]) => U, initialValue: U): U;",
  "    [n: number]: T;",
  "\x7d",
  "",
  "interface ArrayConstructor \x7b",
  "    new <T>(...items: T[]): T[];",
  "    isArray(arg: any): arg is any[];",
  "    readonly prototype: any[];",
  "\x7d",
  "",
  "declare var Array: ArrayConstructor;",
  "",
  "interface IArguments \x7b",
  "    [index: number]: any;",
  "    length: number;",
  "\x7d",
  "",
  "type PropertyKey = string | number | symbol;",
  "type Partial<T> = \x7b [P in keyof T]?: T[P] \x7d;",
  "type Readonly<T> = \x7b readonly [P in keyof T]: T[P] \x7d;",
  "type Record<K extends keyof any, T> = \x7b [P in K]: T \x7d;",
  "type Pick<T, K extends keyof T> = \x7b [P in K]: T[P] \x7d;"
]

/-- The lines of the library that came in 2015. -/
def es2015Lines : List String := [
  "/// Collections, promises and reflection of ECMAScript 2015.",
  "",
  "interface Map<K, V> \x7b",
  "    readonly size: number;",
  "    clear(): void;",
  "    delete(key: K): boolean;",
  "    get(key: K): V | undefined;",
  "    has(key: K): boolean;",
  "    set(key: K, value: V): this;",
  "    forEach(callbackfn: (value: V, key: K, map: Map<K, V>) => void, thisArg?: any): void;",
  "\x7d",
  "",
  "declare var Map: \x7b",
  "    new <K = any, V = any>(entries?: readonly (readonly [K, V])[] | null): Map<K, V>;",
  "\x7d;",
  "",
  "interface Set<T> \x7b",
  "    readonly size: number;",
  "    add(value: T): this;",
  "    clear(): void;",
  "    delete(value: T): boolean;",
  "    has(value: T): boolean;",
  "\x7d",
  "",
  "declare var Set: \x7b",
  "    new <T = any>(values?: readonly T[] | null): Set<T>;",
  "\x7d;",
  "",
  "interface WeakMap<K extends object, V> \x7b",
  "    delete(key: K): boolean;",
  "    get(key: K): V | undefined;",
  "    has(key: K): boolean;",
  "    set(key: K, value: V): this;",
  "\x7d",
  "",
  "declare var WeakMap: \x7b",
  "    new <K extends object = object, V = any>(entries?: readonly [K, V][] | null): WeakMap<K, V>;",
  "\x7d;",
  "",
  "interface PromiseLike<T> \x7b",
  "    then<R1 = T, R2 = never>(",
  "        onfulfilled?: ((value: T) => R1 | PromiseLike<R1>) | null,",
  "        onrejected?: ((reason: any) => R2 | PromiseLike<R2>) | null",
  "    ): PromiseLike<R1 | R2>;",
  "\x7d",
  "",
  "interface Promise<T> \x7b",
  "    then<R1 = T, R2 = never>(",
  "        onfulfilled?: ((value: T) => R1 | PromiseLike<R1>) | null,",
  "        onrejected?: ((reason: any) => R2 | PromiseLike<R2>) | null",
  "    ): Promise<R1 | R2>;",
  "    catch<R = never>(onrejected?: ((reason: any) => R | PromiseLike<R>) | null): Promise<T | R>;",
  "\x7d",
  "",
  "declare var Promise: \x7b",
  "    new <T>(executor: (resolve: (value: T | PromiseLike<T>) => void, reject: (reason?: any) => void) => void): Promise<T>;",
  "    resolve<T>(value: T): Promise<T>;",
  "    reject<T = never>(reason?: any): Promise<T>;",
  "    all<T>(values: readonly (T | PromiseLike<T>)[]): Promise<T[]>;",
  "\x7d;",
  "",
  "interface Symbol \x7b",
  "    readonly description: string | undefined;",
  "\x7d",
  "",
  "declare var Symbol: \x7b",
  "    (description?: string | number): symbol;",
  "    readonly iterator: unique symbol;",
  "    for(key: string): symbol;",
  "\x7d;",
  "",
  "declare namespace Reflect \x7b",
  "    function apply(target: Function, thisArgument: any, argumentsList: ArrayLike<any>): any;",
  "    function get(target: object, propertyKey: PropertyKey): any;",
  "    function has(target: object, propertyKey: PropertyKey): boolean;",
  "    function ownKeys(target: object): (string | symbol)[];",
  "\x7d",
  "",
  "interface ProxyHandler<T extends object> \x7b",
  "    get?(target: T, p: string | symbol, receiver: any): any;",
  "    set?(target: T, p: string | symbol, newValue: any, receiver: any): boolean;",
  "\x7d",
  "",
  "declare var Proxy: \x7b",
  "    new <T extends object>(target: T, handler: ProxyHandler<T>): T;",
  "\x7d;",
  "",
  "interface ArrayLike<T> \x7b",
  "    readonly length: number;",
  "    readonly [n: number]: T;",
  "\x7d"
]

end TypeScriptEngine.Library
